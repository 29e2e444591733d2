import Mathlib.Logic.Relation
import ScriptCore.Proofs.Chain
import ScriptCore.Store.List

/-!
# Objects and the links between them

What proofs about a store need: which objects it has (`Has`), which of them an object refers to (`Link`), what
can be reached, and when a later store keeps all of an earlier one (`Extends`).

A slot is only ever filled with an object that exists, so whatever can be reached from a value in use is in the
store: the store `Covers` the value. An identity that the store has not given out yet would refer to whatever
object is made next.

* `Extends.link_iff`, `Extends.reaches_iff`: what hangs on old objects is the same in a store that keeps them.
* `extent_extends`, `spine_extends`: so are the chains.
* `exists_ends`, `cyclic_iff`, `spine_of_ends`: what a race along a chain finds out, for a store.
-/
namespace ScriptCore.Store

variable {s t u : Store}

/-- The store has the object. -/
def Has (s : Store) : Ref → Prop
  | .cell c => c.index < s.cells.size
  | .atom a => a.index < s.atoms.size

instance (s : Store) : DecidablePred s.Has
  | .cell c => inferInstanceAs (Decidable (c.index < s.cells.size))
  | .atom a => inferInstanceAs (Decidable (a.index < s.atoms.size))

/-- An object has the same content in two stores. -/
def SameAt (s t : Store) : Ref → Prop
  | .cell c => t.cell c = s.cell c
  | .atom a => t.atom a = s.atom a

/-- `t` has all objects of `s`, with the same content. -/
def Extends (s t : Store) : Prop :=
  ∀ r, s.Has r → t.Has r ∧ s.SameAt t r

/-- One object refers to another. -/
inductive Link (s : Store) : Ref → Ref → Prop
  | car {c : CellId} {r : Ref} (h : (s.cell c).car = some r) : Link s (.cell c) r
  | cdr {c d : CellId} (h : (s.cell c).cdr = some d) : Link s (.cell c) (.cell d)
  | field {a : AtomId} {h : HostObject} {r : Ref} (ha : s.atom a = .host h)
      (hr : .value (some r) ∈ h.fields) : Link s (.atom a) r

/-- An object can be reached from a value. -/
def Reaches (s : Store) (v : Value) (r : Ref) : Prop :=
  ∃ q, v = some q ∧ Relation.ReflTransGen s.Link q r

/-- Whatever can be reached from a value is in the store. -/
def Covers (s : Store) (v : Value) : Prop :=
  ∀ r, s.Reaches v r → s.Has r

/-- No object that can be reached from a value can be reached from itself. -/
def Acyclic (s : Store) (v : Value) : Prop :=
  ∀ r, s.Reaches v r → ¬ Relation.TransGen s.Link r r

/-! ## Lookup -/

theorem cell_of_not_has {c : CellId} (h : ¬ s.Has (.cell c)) : s.cell c = {} := by
  simp only [Has, Nat.not_lt] at h
  simp [cell, Array.getD, Nat.not_lt.mpr h]

theorem has_of_cdr {c d : CellId} (h : (s.cell c).cdr = some d) : s.Has (.cell c) := by
  by_contra hc
  rw [cell_of_not_has hc] at h
  cases h

theorem ofLink_eq_some {link : Option CellId} {r : Ref} :
    Value.ofLink link = some r ↔ ∃ c, link = some c ∧ r = .cell c := by
  cases link <;> simp [Value.ofLink, eq_comm]

/-! ## New and changed objects -/

theorem has_newCell {x : Cell} {r : Ref} :
    (s.newCell x).2.Has r ↔ s.Has r ∨ r = .cell (s.newCell x).1 := by
  cases r with
  | cell c =>
    rcases c with ⟨i⟩
    simp only [Has, newCell, Array.size_push, Ref.cell.injEq, CellId.mk.injEq]; omega
  | atom a => simp [Has, newCell]

theorem cell_newCell {x : Cell} (c : CellId) :
    (s.newCell x).2.cell c = if c = (s.newCell x).1 then x else s.cell c := by
  rcases c with ⟨i⟩
  simp only [newCell, cell, Array.getD_eq_getD_getElem?, Array.getElem?_push, CellId.mk.injEq]
  split <;> rfl

theorem newCell_fresh (s : Store) (x : Cell) : ¬ s.Has (.cell (s.newCell x).1) :=
  Nat.lt_irrefl s.cells.size

theorem has_newAtom {x : Atom} {r : Ref} :
    (s.newAtom x).2.Has r ↔ s.Has r ∨ r = .atom (s.newAtom x).1 := by
  cases r with
  | cell c => simp [Has, newAtom]
  | atom a =>
    rcases a with ⟨i⟩
    simp only [Has, newAtom, Array.size_push, Ref.atom.injEq, AtomId.mk.injEq]; omega

theorem atom_newAtom {x : Atom} (a : AtomId) :
    (s.newAtom x).2.atom a = if a = (s.newAtom x).1 then x else s.atom a := by
  rcases a with ⟨i⟩
  simp only [newAtom, atom, Array.getD_eq_getD_getElem?, Array.getElem?_push, AtomId.mk.injEq]
  split <;> rfl

theorem newAtom_fresh (s : Store) (x : Atom) : ¬ s.Has (.atom (s.newAtom x).1) :=
  Nat.lt_irrefl s.atoms.size

theorem has_modifyCell {c : CellId} {f : Cell → Cell} {r : Ref} : (s.modifyCell c f).Has r ↔ s.Has r := by
  cases r <;> simp [Has, modifyCell]

theorem cell_modifyCell {c : CellId} (h : s.Has (.cell c)) (f : Cell → Cell) :
    (s.modifyCell c f).cell c = f (s.cell c) := by
  simp only [Has] at h
  simp [modifyCell, cell, h, Array.getElem_modify]

theorem cell_modifyCell_ne {c d : CellId} (h : d ≠ c) (f : Cell → Cell) : (s.modifyCell c f).cell d = s.cell d := by
  rcases c with ⟨i⟩; rcases d with ⟨j⟩
  have hij : i ≠ j := fun e => h (by rw [e])
  simp [modifyCell, cell, Array.getD_eq_getD_getElem?, Array.getElem?_modify, hij]

theorem has_setAtom {a : AtomId} {x : Atom} {r : Ref} : (s.setAtom a x).Has r ↔ s.Has r := by
  cases r <;> simp [Has, setAtom]

theorem atom_setAtom {a : AtomId} (h : s.Has (.atom a)) (x : Atom) : (s.setAtom a x).atom a = x := by
  simp only [Has] at h
  simp [setAtom, atom, h]

theorem atom_setAtom_ne {a b : AtomId} (h : b ≠ a) (x : Atom) : (s.setAtom a x).atom b = s.atom b := by
  rcases a with ⟨i⟩; rcases b with ⟨j⟩
  have hij : i ≠ j := fun e => h (by rw [e])
  simp [setAtom, atom, Array.getD_eq_getD_getElem?, hij]

theorem sameAt_setAtom {a : AtomId} {r : Ref} (hr : r ≠ .atom a) (x : Atom) : s.SameAt (s.setAtom a x) r := by
  cases r with
  | cell c => rfl
  | atom b => exact atom_setAtom_ne (fun e => hr (congrArg Ref.atom e)) x

/-! ## Stores that keep old objects -/

theorem sameAt_trans {r : Ref} (h : s.SameAt t r) (k : t.SameAt u r) : s.SameAt u r := by
  cases r with
  | cell c => exact Eq.trans k h
  | atom a => exact Eq.trans k h

theorem Extends.refl (s : Store) : s.Extends s := fun r h => ⟨h, by cases r <;> rfl⟩

theorem Extends.trans (h : s.Extends t) (k : t.Extends u) : s.Extends u := by
  intro r hr
  obtain ⟨ht, hst⟩ := h r hr
  obtain ⟨hu, htu⟩ := k r ht
  exact ⟨hu, sameAt_trans hst htu⟩

theorem Extends.has {r : Ref} (h : s.Extends t) (hr : s.Has r) : t.Has r := (h r hr).1

theorem Extends.cell {c : CellId} (h : s.Extends t) (hc : s.Has (.cell c)) : t.cell c = s.cell c :=
  (h _ hc).2

theorem Extends.atom {a : AtomId} (h : s.Extends t) (ha : s.Has (.atom a)) : t.atom a = s.atom a :=
  (h _ ha).2

theorem extends_newCell (s : Store) (x : Cell) : s.Extends (s.newCell x).2 := by
  intro r hr
  refine ⟨has_newCell.mpr (.inl hr), ?_⟩
  cases r with
  | cell c =>
    have hne : c ≠ (s.newCell x).1 := fun e => newCell_fresh s x (e ▸ hr)
    exact (cell_newCell c).trans (if_neg hne)
  | atom a => rfl

theorem extends_newAtom (s : Store) (x : Atom) : s.Extends (s.newAtom x).2 := by
  intro r hr
  refine ⟨has_newAtom.mpr (.inl hr), ?_⟩
  cases r with
  | cell c => rfl
  | atom a =>
    have hne : a ≠ (s.newAtom x).1 := fun e => newAtom_fresh s x (e ▸ hr)
    exact (atom_newAtom a).trans (if_neg hne)

/-- Changing an object that the old store does not have keeps the old store. -/
theorem Extends.modifyCell {c : CellId} (h : s.Extends t) (hc : ¬ s.Has (.cell c)) (f : Cell → Cell) :
    s.Extends (t.modifyCell c f) := by
  intro r hr
  obtain ⟨htr, hs⟩ := h r hr
  refine ⟨has_modifyCell.mpr htr, ?_⟩
  cases r with
  | cell d =>
    have hne : d ≠ c := fun e => hc (e ▸ hr)
    exact (cell_modifyCell_ne hne f).trans hs
  | atom a => exact hs

theorem Extends.setAtom {a : AtomId} (h : s.Extends t) (ha : ¬ s.Has (.atom a)) (x : Atom) :
    s.Extends (t.setAtom a x) := by
  intro r hr
  obtain ⟨htr, hs⟩ := h r hr
  refine ⟨has_setAtom.mpr htr, ?_⟩
  cases r with
  | cell d => exact hs
  | atom b =>
    have hne : b ≠ a := fun e => ha (e ▸ hr)
    exact (atom_setAtom_ne hne x).trans hs

theorem Extends.link_iff {q r : Ref} (h : s.Extends t) (hq : s.Has q) : t.Link q r ↔ s.Link q r := by
  have hsame := (h q hq).2
  constructor
  · intro hl
    cases hl with
    | car e => exact .car (by rw [← e, show t.cell _ = s.cell _ from hsame])
    | cdr e => exact .cdr (by rw [← e, show t.cell _ = s.cell _ from hsame])
    | field e m => exact .field (by rw [← e, show t.atom _ = s.atom _ from hsame]) m
  · intro hl
    cases hl with
    | car e => exact .car (by rw [← e, show t.cell _ = s.cell _ from hsame])
    | cdr e => exact .cdr (by rw [← e, show t.cell _ = s.cell _ from hsame])
    | field e m => exact .field (by rw [← e, show t.atom _ = s.atom _ from hsame]) m

/-! ## Reaching -/

theorem Reaches.refl (s : Store) (r : Ref) : s.Reaches (some r) r := ⟨r, rfl, .refl⟩

theorem Reaches.tail {v : Value} {q r : Ref} (h : s.Reaches v q) (hl : s.Link q r) : s.Reaches v r := by
  obtain ⟨p, hp, hr⟩ := h
  exact ⟨p, hp, hr.tail hl⟩

theorem Reaches.trans {v : Value} {q r : Ref} (h : s.Reaches v q) (k : s.Reaches (some q) r) : s.Reaches v r := by
  obtain ⟨p, hp, hpq⟩ := h
  obtain ⟨_, ⟨⟩, hqr⟩ := k
  exact ⟨p, hp, hpq.trans hqr⟩

theorem Reaches.of_car {c : CellId} {r : Ref} (h : s.Reaches (s.cell c).car r) :
    s.Reaches (some (.cell c)) r := by
  obtain ⟨q, hq, hr⟩ := h
  exact ⟨_, rfl, hr.head (.car hq)⟩

theorem Reaches.of_cdr {c : CellId} {r : Ref} (h : s.Reaches (.ofLink (s.cell c).cdr) r) :
    s.Reaches (some (.cell c)) r := by
  obtain ⟨q, hq, hr⟩ := h
  obtain ⟨d, hd, rfl⟩ := ofLink_eq_some.mp hq
  exact ⟨_, rfl, hr.head (.cdr hd)⟩

theorem Reaches.induction {v : Value} {P : Ref → Prop} (h₀ : ∀ r, v = some r → P r)
    (hs : ∀ q r, P q → s.Link q r → P r) {r : Ref} (h : s.Reaches v r) : P r := by
  obtain ⟨q, hq, hr⟩ := h
  induction hr with
  | refl => exact h₀ q hq
  | tail _ hl ih => exact hs _ _ ih hl

theorem covers_none (s : Store) : s.Covers none := by
  rintro r ⟨q, hq, -⟩
  cases hq

theorem Covers.self {r : Ref} (h : s.Covers (some r)) : s.Has r := h r (Reaches.refl s r)

theorem Covers.of_reaches {v : Value} {r : Ref} (h : s.Covers v) (hr : s.Reaches v r) : s.Covers (some r) :=
  fun q hq => h q (hr.trans hq)

theorem Covers.car {c : CellId} (h : s.Covers (some (.cell c))) : s.Covers (s.cell c).car :=
  fun r hr => h r hr.of_car

theorem Covers.cdr {c : CellId} (h : s.Covers (some (.cell c))) : s.Covers (.ofLink (s.cell c).cdr) :=
  fun r hr => h r hr.of_cdr

/-- What old values reach is the same in a store that keeps them. -/
theorem Extends.reaches_iff {v : Value} {r : Ref} (h : s.Extends t) (hv : s.Covers v) :
    t.Reaches v r ↔ s.Reaches v r := by
  constructor
  · rintro ⟨q, hq, hr⟩
    induction hr with
    | refl => exact ⟨q, hq, .refl⟩
    | tail _ hl ih => exact ih.tail ((h.link_iff (hv _ ih)).mp hl)
  · rintro ⟨q, hq, hr⟩
    induction hr with
    | refl => exact ⟨q, hq, .refl⟩
    | tail hp hl ih => exact ih.tail ((h.link_iff (hv _ ⟨q, hq, hp⟩)).mpr hl)

theorem Extends.covers {v : Value} (h : s.Extends t) (hv : s.Covers v) : t.Covers v :=
  fun r hr => h.has (hv r ((h.reaches_iff hv).mp hr))

/-! ## Chains -/

theorem bounded (s : Store) : Chain.Bounded s.next s.cells.size := by
  refine ⟨(List.range s.cells.size).map CellId.mk, by simp, ?_⟩
  rintro ⟨i⟩ h
  obtain ⟨d, hd⟩ := Option.ne_none_iff_exists'.mp h
  have hi : i < s.cells.size := has_of_cdr hd
  simpa using hi

theorem cyclic_iff (s : Store) (c : CellId) : s.cyclic c = true ↔ ¬ ∃ l, Chain.Ends s.next c l :=
  Chain.extent_cyclic_iff s.bounded

theorem exists_ends {c : CellId} (h : s.cyclic c = false) : ∃ l, Chain.Ends s.next c l := by
  by_contra hn
  rw [(cyclic_iff s c).mpr hn] at h
  cases h

theorem cyclic_of_ends {c : CellId} {l : List CellId} (h : Chain.Ends s.next c l) : s.cyclic c = false := by
  rw [cyclic, extent, Chain.extent_of_ends s.bounded h]

theorem spine_of_ends {c : CellId} {l : List CellId} (h : Chain.Ends s.next c l) : s.spine c = l :=
  Chain.points_of_ends s.bounded h

theorem reaches_follow {c d : CellId} {i : Nat} (h : Chain.follow s.next i c = some d) :
    s.Reaches (some (.cell c)) (.cell d) := by
  induction i generalizing d with
  | zero => cases h; exact Reaches.refl s _
  | succ i ih =>
    rw [Chain.follow_succ, Option.bind_eq_some_iff] at h
    obtain ⟨b, hb, hd⟩ := h
    exact (ih hb).tail (.cdr hd)

theorem reaches_spine {c d : CellId} (h : d ∈ s.spine c) : s.Reaches (some (.cell c)) (.cell d) := by
  obtain ⟨i, hi⟩ := Chain.mem_points h
  exact reaches_follow hi

theorem extent_extends (h : s.Extends t) {c : CellId} (hc : s.Covers (some (.cell c))) :
    t.extent c = s.extent c := by
  apply Chain.extent_congr s.bounded t.bounded
  intro i b hb
  rw [next, next, h.cell (hc _ (reaches_follow hb))]

theorem spine_extends (h : s.Extends t) {c : CellId} (hc : s.Covers (some (.cell c))) :
    t.spine c = s.spine c := by
  apply Chain.points_congr s.bounded t.bounded
  intro i b hb
  rw [next, next, h.cell (hc _ (reaches_follow hb))]

end ScriptCore.Store
