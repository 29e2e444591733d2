import ScriptCore.Proofs.Extent
import ScriptCore.Store.Print

/-!
# Printing ends, and marks the cycles

Only the first cell of each list that is being printed is remembered, not the cells behind it. So an element may lead
back into the middle of a chain that is being printed, which is then printed again from there on. That can happen no
more often than there are cells, since each time another one is the first: each level of nesting takes one of the cells
that are not yet remembered, or leads further into a host object (`levels`).

Where the atoms are numbers and truth values, the dots in a text can only come from the two marks. `dot_of_shown` says
that the marks are true: a list is marked if its chain runs into a cycle, or if it is met inside itself.
`acc_of_shown` says that none is missing: what is printed without a mark has been printed to its end, so that following
its links ends too.

* `print_eq`: printing leaves the cells that are being printed as they are.
* `shown_stable`: with more levels than can be needed, their number does not matter.
* `print_marks_cycles`: both, and what the marks say.
-/
namespace ScriptCore

open Relation

/-- Actions that leave the state as it is, one after the other. -/
theorem mapM_run {σ α β : Type} (f : α → StateM σ β) (st : σ) {l : List α} (h : ∀ a ∈ l, (f a st).2 = st) :
    l.mapM f st = (l.map fun a => (f a st).1, st) := by
  induction l with
  | nil => rfl
  | cons a l ih =>
    have ha := h a (by simp)
    have hl := ih fun b hb => h b (by simp [hb])
    obtain ⟨b, st', hfa⟩ : ∃ b st', f a st = (b, st') := ⟨_, _, rfl⟩
    rw [hfa] at ha
    cases ha
    rw [List.mapM_cons, List.map_cons]
    simp only [bind, StateT.bind, hfa, hl]
    rfl

/-- Elements between brackets, with a mark behind them if they go round in a cycle. -/
def listText (kind : CellKind) (cyclic : Bool) (items : List String) : String :=
  kind.brackets.1 ++ " ".intercalate items ++ (if cyclic then " ..." else "") ++ kind.brackets.2

/-- The name of a type and the texts of the fields of a host object. -/
def hostText (name : String) : List String → String
  | [] => "<" ++ name ++ ">"
  | items => "<" ++ name ++ " " ++ ",".intercalate items ++ ">"

/-! ## Dots in texts -/

theorem intercalate_cons {α : Type} (sep x : List α) (xs : List (List α)) :
    sep.intercalate (x :: xs) = x ++ xs.flatMap (sep ++ ·) := by
  induction xs generalizing x with
  | nil => simp
  | cons y ys ih => rw [List.intercalate_cons_cons, ih, List.flatMap_cons, List.append_assoc, List.append_assoc]

theorem toList_listText (kind : CellKind) (cyclic : Bool) (items : List String) :
    (listText kind cyclic items).toList = kind.brackets.1.toList ++ ([' '].intercalate (items.map String.toList) ++
      ((if cyclic then [' ', '.', '.', '.'] else []) ++ kind.brackets.2.toList)) := by
  unfold listText
  cases cyclic <;> simp

theorem mem_intercalate {α : Type} {a : α} {sep : List α} {xs : List (List α)} (h : a ∈ sep.intercalate xs) :
    a ∈ sep ∨ ∃ x ∈ xs, a ∈ x := by
  cases xs with
  | nil => simp at h
  | cons x xs =>
    rw [intercalate_cons] at h
    simp only [List.mem_append, List.mem_flatMap] at h
    grind

/-- A dot in the text of a list comes from the mark behind the elements or from an element. -/
theorem dot_of_listText {kind : CellKind} {cyclic : Bool} {items : List String}
    (h : '.' ∈ (listText kind cyclic items).toList) : cyclic = true ∨ ∃ item ∈ items, '.' ∈ item.toList := by
  have hbrackets : '.' ∉ kind.brackets.1.toList ∧ '.' ∉ kind.brackets.2.toList := by cases kind <;> decide
  simp only [toList_listText, List.mem_append] at h
  rcases h with h | h | h | h
  · exact absurd h hbrackets.1
  · rcases mem_intercalate h with h | ⟨_, hitem, h⟩
    · simp at h
    · obtain ⟨item, hmem, rfl⟩ := List.mem_map.mp hitem
      exact .inr ⟨item, hmem, h⟩
  · cases cyclic with
    | true => exact .inl rfl
    | false => simp at h
  · exact absurd h hbrackets.2

theorem infix_intercalate {α : Type} {x : List α} {xs : List (List α)} (h : x ∈ xs) (sep : List α) :
    x <:+: sep.intercalate xs := by
  obtain ⟨as, bs, rfl⟩ := List.append_of_mem h
  cases as with
  | nil => exact ⟨[], bs.flatMap (sep ++ ·), by simp [intercalate_cons]⟩
  | cons a as =>
    exact ⟨a ++ as.flatMap (sep ++ ·) ++ sep, bs.flatMap (sep ++ ·), by simp [intercalate_cons, List.append_assoc]⟩

theorem infix_listText {item : String} {items : List String} (h : item ∈ items) (kind : CellKind) (cyclic : Bool) :
    item.toList <:+: (listText kind cyclic items).toList := by
  rw [toList_listText]
  exact (infix_intercalate (List.mem_map_of_mem h) [' ']).trans (List.infix_append' _ _ _)

theorem marked_listText (kind : CellKind) (items : List String) :
    ['.', '.', '.'] <:+: (listText kind true items).toList := by
  rw [toList_listText, if_pos rfl]
  exact ⟨kind.brackets.1.toList ++ ([' '].intercalate (items.map String.toList) ++ [' ']), kind.brackets.2.toList,
    by simp⟩

theorem isDigit_of_mem_repr {ch : Char} {n : Nat} (h : ch ∈ n.repr.toList) : ch.isDigit = true := by
  rw [Nat.toList_repr] at h
  exact Nat.isDigit_of_mem_toDigits (by decide) (by decide) h

theorem mem_toString {ch : Char} {i : Int} (h : ch ∈ (toString i).toList) : ch = '-' ∨ ch.isDigit = true := by
  rw [Int.toString_eq_repr, Int.repr_eq_if] at h
  split at h
  · exact .inr (isDigit_of_mem_repr h)
  · rw [String.toList_append, List.mem_append] at h
    rcases h with h | h
    · exact .inl (by simpa using h)
    · exact .inr (isDigit_of_mem_repr h)

namespace Store

variable {s : Store} {n m : Nat} {busy : List CellId} {c : CellId} {a : AtomId} {r : Ref} {v : Value}

/-! ## The texts of the parts of a value -/

/-- The text of a value while some cells are being printed. -/
def shown (s : Store) (n : Nat) (busy : List CellId) (v : Value) : String :=
  (s.print n v busy).1

/-- Printing a field of a host object. -/
def printField (s : Store) (n : Nat) : Field → PrintM String
  | .item i => return i.display
  | .value v => s.print n v

/-- The text of an atom. -/
def atomText (s : Store) (n : Nat) (busy : List CellId) : Atom → String
  | .datum d => d.display
  | .builtin b => "<builtin " ++ b.name ++ ">"
  | .host h => hostText h.type.name (h.fields.map fun f => (s.printField n f busy).1)

theorem print_cell (ih : ∀ v busy, (s.print n v busy).2 = busy) (c : CellId) (busy : List CellId) :
    s.print (n + 1) (some (.cell c)) busy =
      (if c ∈ busy then "..."
        else listText (s.cell c).kind (s.cyclic c) ((s.elements c).map (s.shown n (c :: busy))), busy) := by
  rw [print]
  change (if c ∈ busy then _ else _ : PrintM String) busy = _
  by_cases hc : c ∈ busy
  · rw [if_pos hc, if_pos hc]
    rfl
  · have hrun := mapM_run (fun d => s.print n (s.cell d).car) (c :: busy) (l := s.spine c) fun d _ => ih _ _
    rw [if_neg hc, if_neg hc, elements, List.map_map]
    change (let r := (s.spine c).mapM (fun d => s.print n (s.cell d).car) (c :: busy)
      (listText (s.cell c).kind (s.cyclic c) r.1, r.2.erase c)) = _
    rw [hrun]
    simp only [List.erase_cons_head]
    rfl

theorem print_atom (ih : ∀ v busy, (s.print n v busy).2 = busy) (a : AtomId) (busy : List CellId) :
    s.print (n + 1) (some (.atom a)) busy = (s.atomText n busy (s.atom a), busy) := by
  rw [print]
  cases s.atom a with
  | datum d => rfl
  | builtin b => rfl
  | host h =>
    simp only [atomText]
    cases h.fields with
    | nil => rfl
    | cons f fields =>
      have hrun := mapM_run (s.printField n) busy (l := f :: fields) fun f _ => by
        cases f with
        | item i => rfl
        | value v => exact ih v busy
      change (let r := (f :: fields).mapM (s.printField n) busy
        ("<" ++ h.type.name ++ " " ++ ",".intercalate r.1 ++ ">", r.2)) = _
      rw [hrun]
      rfl

/-- Whatever is printed, the cells that are being printed are the same afterwards. -/
theorem print_eq (s : Store) (n : Nat) (v : Value) (busy : List CellId) :
    s.print n v busy = (s.shown n busy v, busy) := by
  induction n generalizing v busy with
  | zero => cases v <;> rfl
  | succ n ih =>
    have hbusy : ∀ v busy, (s.print n v busy).2 = busy := fun v busy => by rw [ih]
    rcases v with _ | c | a
    · rfl
    · rw [shown, print_cell hbusy]
    · rw [shown, print_atom hbusy]

theorem snd_print (s : Store) (n : Nat) (v : Value) (busy : List CellId) : (s.print n v busy).2 = busy := by
  rw [print_eq]

@[simp] theorem shown_nil : s.shown n busy none = "nil" := by
  cases n <;> rfl

theorem shown_busy (h : c ∈ busy) : s.shown (n + 1) busy (some (.cell c)) = "..." := by
  rw [shown, print_cell (snd_print s n), if_pos h]

theorem shown_cell (h : c ∉ busy) :
    s.shown (n + 1) busy (some (.cell c)) =
      listText (s.cell c).kind (s.cyclic c) ((s.elements c).map (s.shown n (c :: busy))) := by
  rw [shown, print_cell (snd_print s n), if_neg h]

theorem shown_atom : s.shown (n + 1) busy (some (.atom a)) = s.atomText n busy (s.atom a) := by
  rw [shown, print_atom (snd_print s n)]

/-! ## Printing ends -/

/-- A host object has an atom as one of its fields. -/
def Embeds (s : Store) (a b : AtomId) : Prop :=
  ∃ g, s.atom a = .host g ∧ .value (some (.atom b)) ∈ g.fields

/-- No host object that can be reached from the value is a part of itself without a cell between. Only cells are
remembered while they are printed, so such an object would be printed inside itself for ever. -/
def Grounded (s : Store) (v : Value) : Prop :=
  ∀ a, s.Reaches v (.atom a) → ¬ TransGen s.Embeds a a

/-- Printing the second object, with some cells being printed, asks to print the first one. -/
inductive Shows (s : Store) : List CellId × Ref → List CellId × Ref → Prop
  | element {busy : List CellId} {c : CellId} {r : Ref} (idle : c ∉ busy) (h : some r ∈ s.elements c) :
      Shows s (c :: busy, r) (busy, .cell c)
  | field {busy : List CellId} {a : AtomId} {g : HostObject} {r : Ref} (ha : s.atom a = .host g)
      (h : .value (some r) ∈ g.fields) : Shows s (busy, r) (busy, .atom a)

/-- The cells that are not being printed. -/
def idle (s : Store) (busy : List CellId) : Set CellId :=
  { c | s.Has (.cell c) ∧ c ∉ busy }

/-- The parts of an atom, itself included, that are met before a cell comes. -/
def parts (s : Store) (a : AtomId) : Set AtomId :=
  { b | s.Has (.atom b) ∧ ReflTransGen s.Embeds a b }

/-- How many atoms can be nested in an object before a cell comes. -/
noncomputable def height (s : Store) : Ref → Nat
  | .cell _ => 0
  | .atom a => (s.parts a).ncard

/-- A bound on the levels that printing can still need: each further cell allows for one run of nested atoms. -/
noncomputable def levels (s : Store) (x : List CellId × Ref) : Nat :=
  (s.idle x.1).ncard * (s.atoms.size + 1) + s.height x.2

theorem ncard_idle (s : Store) (busy : List CellId) :
    (s.idle busy).Finite ∧ (s.idle busy).ncard ≤ s.cells.size :=
  ncard_cells_le fun _ h => h.1

theorem ncard_parts (s : Store) (a : AtomId) : (s.parts a).Finite ∧ (s.parts a).ncard ≤ s.atoms.size :=
  ncard_atoms_le fun _ h => h.1

theorem height_le (s : Store) (r : Ref) : s.height r ≤ s.atoms.size := by
  cases r with
  | cell c => exact Nat.zero_le _
  | atom a => exact (ncard_parts s a).2

theorem ncard_idle_cons (hc : s.Has (.cell c)) (h : c ∉ busy) :
    (s.idle (c :: busy)).ncard < (s.idle busy).ncard := by
  refine Set.ncard_lt_ncard ⟨fun d hd => ⟨hd.1, fun hmem => hd.2 (by simp [hmem])⟩, fun hsub => ?_⟩
    (ncard_idle s busy).1
  exact (hsub ⟨hc, h⟩ : c ∈ s.idle (c :: busy)).2 (by simp)

theorem has_of_host {g : HostObject} (h : s.atom a = .host g) : s.Has (.atom a) := by
  by_contra hn
  simp only [Has, Nat.not_lt] at hn
  simp [atom, Array.getD, Nat.not_lt.mpr hn] at h

theorem has_of_element (h : some r ∈ s.elements c) : s.Has (.cell c) := by
  by_contra hn
  have hempty := cell_of_not_has hn
  have hends : Chain.Ends s.next c [c] := .last (by rw [next, hempty])
  rw [elements, spine_of_ends hends, List.map_singleton, hempty, List.mem_singleton] at h
  cases h

theorem transGen_element (h : some r ∈ s.elements c) : TransGen s.Link (.cell c) r := by
  obtain ⟨d, hd, hcar⟩ := List.mem_map.mp h
  obtain ⟨_, ⟨⟩, hcd⟩ := reaches_spine hd
  exact .tail' hcd (.car hcar)

theorem reaches_element (h : some r ∈ s.elements c) : s.Reaches (some (.cell c)) r :=
  ⟨_, rfl, (transGen_element h).to_reflTransGen⟩

/-- A part of an atom has fewer parts, as long as the atom is not one of them. -/
theorem ncard_parts_lt {g : HostObject} {b : AtomId} (ha : s.atom a = .host g)
    (hb : .value (some (.atom b)) ∈ g.fields) (hground : ¬ TransGen s.Embeds a a) :
    (s.parts b).ncard < (s.parts a).ncard := by
  have hab : s.Embeds a b := ⟨g, ha, hb⟩
  refine Set.ncard_lt_ncard ⟨fun x hx => ⟨hx.1, hx.2.head hab⟩, fun hsub => ?_⟩ (ncard_parts s a).1
  have hself : a ∈ s.parts b := hsub ⟨has_of_host ha, .refl⟩
  exact hground (TransGen.head' hab hself.2)

theorem Grounded.of_reaches (h : s.Grounded v) (hr : s.Reaches v r) : s.Grounded (some r) :=
  fun a ha => h a (hr.trans ha)

/-- Without host objects nothing is embedded. -/
theorem grounded_of_data (h : ∀ a, s.Reaches v (.atom a) → ∃ d, s.atom a = .datum d) : s.Grounded v := by
  intro a ha hloop
  obtain ⟨b, ⟨g, hg, -⟩, -⟩ := TransGen.head'_iff.mp hloop
  obtain ⟨d, hd⟩ := h a ha
  rw [hd] at hg
  cases hg

/-- What is printed inside an object needs fewer levels. -/
theorem Shows.levels_lt {x y : List CellId × Ref} (h : s.Shows x y) (hy : s.Grounded (some y.2)) :
    s.Grounded (some x.2) ∧ s.levels x < s.levels y := by
  cases h with
  | @element busy c r idle h =>
    refine ⟨hy.of_reaches (reaches_element h), ?_⟩
    have hlt := ncard_idle_cons (has_of_element h) idle
    have hheight := s.height_le r
    have hmul := Nat.mul_le_mul_right (s.atoms.size + 1) hlt
    have hself : s.height (.cell c) = 0 := rfl
    simp only [levels, hself, Nat.succ_mul] at hmul ⊢
    omega
  | @field busy a g r ha h =>
    refine ⟨hy.of_reaches ((Reaches.refl s _).tail (.field ha h)), Nat.add_lt_add_left ?_ _⟩
    cases r with
    | cell c =>
      have hself : a ∈ s.parts a := ⟨has_of_host ha, .refl⟩
      exact (Set.ncard_pos (ncard_parts s a).1).mpr ⟨a, hself⟩
    | atom b => exact ncard_parts_lt ha h (hy a (Reaches.refl s _))

theorem Grounded.acc (h : s.Grounded (some r)) (busy : List CellId) : Acc s.Shows (busy, r) := by
  generalize hn : s.levels (busy, r) = n
  induction n using Nat.strongRecOn generalizing busy r with
  | _ n ih =>
    refine ⟨_, fun y hyx => ?_⟩
    obtain ⟨hy, hlt⟩ := hyx.levels_lt h
    exact ih _ (hn ▸ hlt) hy _ rfl

theorem levels_lt_printDepth (s : Store) (x : List CellId × Ref) : s.levels x < s.printDepth := by
  have hidle := Nat.mul_le_mul_right (s.atoms.size + 1) (ncard_idle s x.1).2
  have hheight := s.height_le x.2
  simp only [levels, printDepth, Nat.succ_mul]
  omega

/-- With more levels than are needed, the text does not depend on their number. -/
theorem shown_stable (h : s.Grounded (some r)) (hn : s.levels (busy, r) < n) (hm : s.levels (busy, r) < m) :
    s.shown n busy (some r) = s.shown m busy (some r) := by
  induction n generalizing m busy r with
  | zero => omega
  | succ n ih =>
    obtain ⟨m, rfl⟩ : ∃ k, m = k + 1 := ⟨m - 1, by omega⟩
    have hinner : ∀ {busy' : List CellId} {q : Ref}, s.Shows (busy', q) (busy, r) →
        s.shown n busy' (some q) = s.shown m busy' (some q) := by
      intro busy' q hx
      obtain ⟨hgr, hlt⟩ := hx.levels_lt h
      exact ih hgr (by omega) (by omega)
    cases r with
    | cell c =>
      by_cases hc : c ∈ busy
      · rw [shown_busy hc, shown_busy hc]
      · rw [shown_cell hc, shown_cell hc]
        congr 1
        refine List.map_congr_left fun v hv => ?_
        cases v with
        | none => rw [shown_nil, shown_nil]
        | some q => exact hinner (.element hc hv)
    | atom a =>
      rw [shown_atom, shown_atom]
      cases ha : s.atom a with
      | datum d => rfl
      | builtin b => rfl
      | host g =>
        have hfields : (g.fields.map fun f => (s.printField n f busy).1) =
            g.fields.map fun f => (s.printField m f busy).1 := by
          refine List.map_congr_left fun f hf => ?_
          rcases f with i | _ | q
          · rfl
          · exact (shown_nil (n := n)).trans shown_nil.symm
          · exact hinner (.field ha hf)
        rw [atomText, atomText, hfields]

/-! ## What the marks say -/

/-- All atoms that can be reached from the value are integers or truth values. -/
def Numeric (s : Store) (v : Value) : Prop :=
  ∀ a, s.Reaches v (.atom a) →
    (∃ n, s.atom a = .datum (.integer n)) ∨ ∃ b, s.atom a = .datum (.boolean b)

/-- A cell that lies on a cycle can be reached from the value. Where all atoms are numeric, no links lead on from them, so
that these are the links of first and second slots alone. -/
def MeetsCycle (s : Store) (v : Value) : Prop :=
  ∃ d, s.Reaches v (.cell d) ∧ TransGen s.Link (.cell d) (.cell d)

theorem Numeric.of_reaches (h : s.Numeric v) (hr : s.Reaches v r) : s.Numeric (some r) :=
  fun a ha => h a (hr.trans ha)

theorem MeetsCycle.of_reaches (hr : s.Reaches v r) (h : s.MeetsCycle (some r)) : s.MeetsCycle v := by
  obtain ⟨d, hrd, hcycle⟩ := h
  exact ⟨d, hr.trans hrd, hcycle⟩

theorem Numeric.data (h : s.Numeric v) (ha : s.Reaches v (.atom a)) : ∃ d, s.atom a = .datum d := by
  rcases h a ha with ⟨n, hn⟩ | ⟨b, hb⟩
  · exact ⟨_, hn⟩
  · exact ⟨_, hb⟩

theorem Numeric.grounded (h : s.Numeric v) : s.Grounded v :=
  grounded_of_data fun _ => h.data

theorem meetsCycle_of_cyclic (h : s.cyclic c = true) : s.MeetsCycle (some (.cell c)) := by
  rcases Chain.ends_or_loops s.bounded c with hends | ⟨lead, period, hl⟩
  · exact absurd hends ((cyclic_iff s c).mp h)
  · obtain ⟨d, hd⟩ := Option.ne_none_iff_exists'.mp (hl.ne_none lead)
    have hround := hl.closes
    rw [Chain.follow_add, hd, Option.bind_some] at hround
    obtain ⟨k, rfl⟩ : ∃ k, period = k + 1 := ⟨period - 1, by have := hl.pos; omega⟩
    rw [Chain.follow_succ] at hround
    obtain ⟨e, he, hnext⟩ := Option.bind_eq_some_iff.mp hround
    have hcycle : TransGen (fun a b => s.next a = some b) d d := .tail' (Chain.reflTransGen_iff.mpr ⟨k, he⟩) hnext
    exact ⟨d, reaches_follow hd, hcycle.lift Ref.cell fun _ _ => .cdr⟩

theorem dot_notMem_atomText (h : s.Numeric (some (.atom a))) : '.' ∉ (s.atomText n busy (s.atom a)).toList := by
  rcases h a (Reaches.refl s _) with ⟨i, ha⟩ | ⟨b, ha⟩
  · rw [ha, atomText, Datum.display]
    intro hdot
    rcases mem_toString hdot with h | h <;> simp at h
  · rw [ha, atomText, Datum.display]
    cases b <;> simp

/-- A dot comes from a cycle, or from a cell that was being printed before. -/
theorem dot_of_shown (hr : s.Numeric (some r)) (hn : s.levels (busy, r) < n)
    (h : '.' ∈ (s.shown n busy (some r)).toList) :
    s.MeetsCycle (some r) ∨ ∃ d ∈ busy, s.Reaches (some r) (.cell d) := by
  induction n generalizing busy r with
  | zero => omega
  | succ n ih =>
    cases r with
    | atom a =>
      rw [shown_atom] at h
      exact absurd h (dot_notMem_atomText hr)
    | cell c =>
      by_cases hc : c ∈ busy
      · exact .inr ⟨c, hc, Reaches.refl s _⟩
      rw [shown_cell hc] at h
      rcases dot_of_listText h with hcyclic | ⟨_, hitem, hdot⟩
      · exact .inl (meetsCycle_of_cyclic hcyclic)
      obtain ⟨v, hv, rfl⟩ := List.mem_map.mp hitem
      cases v with
      | none => simp at hdot
      | some q =>
        have hreach := reaches_element hv
        have hlt := (Shows.levels_lt (.element hc hv) hr.grounded).2
        rcases ih (hr.of_reaches hreach) (by omega) hdot with hcycle | ⟨d, hd, hqd⟩
        · exact .inl (hcycle.of_reaches hreach)
        obtain ⟨_, ⟨⟩, hqd⟩ := hqd
        have hcd : TransGen s.Link (.cell c) (.cell d) := (transGen_element hv).trans_left hqd
        rcases List.mem_cons.mp hd with rfl | hd
        · -- the element leads back to the list that it is an element of
          exact .inl ⟨d, Reaches.refl s _, hcd⟩
        · exact .inr ⟨d, hd, _, rfl, hcd.to_reflTransGen⟩

/-- Where following the links ends, there is no cycle. -/
theorem not_meetsCycle_of_acc (h : Acc (fun q r => s.Link r q) r) : ¬ s.MeetsCycle (some r) := by
  induction h with
  | intro r _ ih =>
    rintro ⟨d, ⟨_, ⟨⟩, hrd⟩, hcycle⟩
    rcases hrd.cases_head with rfl | ⟨q, hq, hqd⟩
    · obtain ⟨q, hq, hqd⟩ := TransGen.head'_iff.mp hcycle
      exact ih q hq ⟨d, ⟨q, rfl, hqd⟩, hcycle⟩
    · exact ih q hq ⟨d, ⟨q, rfl, hqd⟩, hcycle⟩

theorem acc_of_ends {l : List CellId} (h : Chain.Ends s.next c l)
    (hl : ∀ d ∈ l, ∀ q, (s.cell d).car = some q → Acc (fun q r => s.Link r q) q) :
    Acc (fun q r => s.Link r q) (.cell c) := by
  induction h with
  | last h =>
    refine ⟨_, fun q hq => ?_⟩
    cases hq with
    | car hcar => exact hl _ (by simp) q hcar
    | cdr hcdr => exact absurd (h.symm.trans hcdr) (by simp)
  | cons h _ ih =>
    refine ⟨_, fun q hq => ?_⟩
    cases hq with
    | car hcar => exact hl _ (by simp) q hcar
    | cdr hcdr =>
      cases h.symm.trans hcdr
      exact ih fun d hd => hl d (by simp [hd])

/-- What is printed without a mark is printed to its end. -/
theorem acc_of_shown (hr : s.Numeric (some r)) (h : ¬ ['.', '.', '.'] <:+: (s.shown n busy (some r)).toList) :
    Acc (fun q r => s.Link r q) r := by
  have hdots : ['.', '.', '.'] <:+: "...".toList := by decide
  induction n generalizing busy r with
  | zero => exact absurd hdots h
  | succ n ih =>
    cases r with
    | atom a =>
      refine ⟨_, fun q hq => ?_⟩
      cases hq with
      | field ha =>
        obtain ⟨d, hd⟩ := hr.data (Reaches.refl s _)
        rw [hd] at ha
        cases ha
    | cell c =>
      by_cases hc : c ∈ busy
      · rw [shown_busy hc] at h
        exact absurd hdots h
      rw [shown_cell hc] at h
      have hproper : s.cyclic c = false := by
        by_contra hcyclic
        rw [Bool.not_eq_false] at hcyclic
        rw [hcyclic] at h
        exact h (marked_listText _ _)
      obtain ⟨l, hl⟩ := exists_ends hproper
      refine acc_of_ends hl fun d hd q hcar => ?_
      have hq : some q ∈ s.elements c := by
        rw [elements, spine_of_ends hl]
        exact List.mem_map.mpr ⟨d, hd, hcar⟩
      have hunmarked : ¬ ['.', '.', '.'] <:+: (s.shown n (c :: busy) (some q)).toList := fun hmark =>
        h (hmark.trans (infix_listText (List.mem_map_of_mem hq) _ _))
      exact ih (hr.of_reaches (reaches_element hq)) hunmarked

/-- Printing a list ends, whatever cells are being printed at that time, and leaves these as they are: the calls are
well-founded, and the text is the same for all numbers of levels from some number on. Where only integers, truth values
and nil are met besides cells, the text has the mark if and only if a cell on a cycle can be reached. -/
theorem print_marks_cycles (h : s.Grounded (some (.cell c))) :
    (∀ busy, Acc s.Shows (busy, .cell c) ∧
      ∃ text, ∀ n, s.printDepth ≤ n → s.print n (some (.cell c)) busy = (text, busy)) ∧
    (s.Numeric (some (.cell c)) →
      (['.', '.', '.'] <:+: (s.repr (some (.cell c))).toList ↔ s.MeetsCycle (some (.cell c)))) := by
  refine ⟨fun busy => ⟨h.acc busy, s.shown s.printDepth busy (some (.cell c)), fun n hn => ?_⟩, fun hnum => ?_⟩
  · have hlevels := s.levels_lt_printDepth (busy, .cell c)
    rw [print_eq, shown_stable h (by omega) hlevels]
  · constructor
    · intro hmark
      have hdot : '.' ∈ (s.repr (some (.cell c))).toList := hmark.subset (by simp)
      rcases dot_of_shown hnum (s.levels_lt_printDepth _) hdot with hcycle | ⟨d, hd, -⟩
      · exact hcycle
      · cases hd
    · intro hcycle
      by_contra hmark
      exact not_meetsCycle_of_acc (acc_of_shown hnum hmark) hcycle

/-- A list of three cells whose second element is the third of them and whose third element is the second; and a list of
two cells whose first element is its own second cell, which the other list shares. -/
def tangle : Store where
  cells := #[{ car := some (.cell ⟨4⟩), cdr := some ⟨1⟩ }, { kind := .block, car := some (.cell ⟨2⟩), cdr := some ⟨2⟩ },
    { car := some (.cell ⟨1⟩) }, { car := some (.cell ⟨4⟩), cdr := some ⟨4⟩ }, { car := some (.atom ⟨0⟩) }]
  atoms := #[.datum (.integer 7)]

/-- Only the first of the two lists is marked, since only it leads to a cycle. -/
theorem print_marks_cycles_tangle :
    (∃ text, ∀ n, tangle.printDepth ≤ n → tangle.print n (some (.cell ⟨0⟩)) [] = (text, [])) ∧
    tangle.repr (some (.cell ⟨0⟩)) = "((7) (\x7b... ...\x7d) \x7b(...) ...\x7d)" ∧
    tangle.MeetsCycle (some (.cell ⟨0⟩)) ∧
    tangle.repr (some (.cell ⟨3⟩)) = "((7) 7)" ∧ ¬ tangle.MeetsCycle (some (.cell ⟨3⟩)) := by
  have hnum : ∀ v, tangle.Numeric v := by
    intro v a _
    rcases a with ⟨_ | i⟩
    · exact .inl ⟨7, rfl⟩
    · exact .inl ⟨0, by simp [atom, tangle]⟩
  have hends := print_marks_cycles (hnum (some (.cell ⟨0⟩))).grounded
  have hshared := print_marks_cycles (hnum (some (.cell ⟨3⟩))).grounded
  refine ⟨(hends.1 []).2, by decide +kernel, (hends.2 (hnum _)).mp (by decide +kernel), by decide +kernel, ?_⟩
  exact fun h => absurd ((hshared.2 (hnum _)).mpr h) (by decide +kernel)

end Store

end ScriptCore
