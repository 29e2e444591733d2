import ScriptCore.Proofs.Extent
import ScriptCore.Proofs.Wire

/-!
# Appending to a chain that others share

Appending makes one cell and links it behind the last cell of the chain (`Appended`). Other chains may lead through
that last cell too, from any other cell of the store. All of these get the new element at their ends, and what is read
from any other chain is the same as before, also where that one runs into a cycle (`append_shared`).

A chain that runs into a cycle has no last cell, so nothing can be appended to it.
-/
namespace ScriptCore.Store

open Chain

variable {s t : Store} {last new x : CellId} {kind : CellKind} {v : Value}

/-- Every cell that is linked to exists. -/
def Linked (s : Store) : Prop :=
  ∀ c d, s.next c = some d → s.Has (.cell d)

/-- `t` is `s` with a new cell, which has the given kind and element and ends a chain. It is linked to from the cell
that was the last one, and that is all that is different. -/
structure Appended (s t : Store) (last new : CellId) (kind : CellKind) (v : Value) : Prop where
  fresh : ¬ s.Has (.cell new)
  has_iff : ∀ r, t.Has r ↔ s.Has r ∨ r = .cell new
  made : t.cell new = { kind, car := v, cdr := none }
  linked : t.cell last = { s.cell last with cdr := some new }
  kept : ∀ d, s.Has (.cell d) → d ≠ last → t.cell d = s.cell d
  atoms : t.atoms = s.atoms

theorem Linked.has_of_behind (hs : s.Linked) (hx : s.Has (.cell x)) {d : CellId} (h : s.Behind x d) :
    s.Has (.cell d) := by
  unfold Behind at h
  cases h with
  | refl => exact hx
  | tail _ hnext => exact hs _ _ hnext

/-! ## What appending does to the store -/

theorem append_of_not_ends {c : CellId} (h : ¬ ∃ l, Ends s.next c l) (v : Value) :
    append c v s = .error .cyclicList s := by
  unfold append
  simp only [run_bind, run_get, (cyclic_iff s c).mpr h]
  rfl

/-- Where the cell that the walk ends at is searched for in the store with the new cell, it is found all the same. -/
theorem append_of_ends {c : CellId} {l : List CellId} (h : Ends s.next c l) (hl : ∀ d ∈ l, s.Has (.cell d))
    (v : Value) :
    ∃ t last new, append c v s = .ok () t ∧ last ∈ l ∧ s.next last = none ∧
      s.Appended t last new (s.cell c).kind v := by
  set cell : Cell := { kind := (s.cell c).kind, car := v }
  set t := (s.newCell cell).2
  set new := (s.newCell cell).1
  have hext : s.Extends t := extends_newCell s cell
  have hnext : ∀ d ∈ l, t.next d = s.next d := fun d hd => by rw [next, next, hext.cell (hl d hd)]
  obtain ⟨hmem, hnone⟩ := last_of_ends (h.congr hnext) ((h.congr hnext).length_le t.bounded)
  set last := Chain.last t.next t.cells.size c
  have hfresh : ¬ s.Has (.cell new) := newCell_fresh s cell
  have hne : new ≠ last := fun e => hfresh (e ▸ hl last hmem)
  have hlast : t.Has (.cell last) := hext.has (hl last hmem)
  refine ⟨t.setCdr last (some new), last, new, ?_, hmem, (hnext last hmem).symm.trans hnone, ?_⟩
  · unfold append
    simp only [run_bind, run_get, cyclic_of_ends h]
    rfl
  · refine ⟨hfresh, fun r => ?_, ?_, ?_, fun d hd hdl => ?_, rfl⟩
    · rw [setCdr, has_modifyCell, has_newCell]
    · rw [setCdr, cell_modifyCell_ne hne, cell_newCell, if_pos rfl]
    · rw [setCdr, cell_modifyCell hlast, hext.cell (hl last hmem)]
    · rw [setCdr, cell_modifyCell_ne hdl, hext.cell hd]

/-! ## What it does to the chains of the store -/

namespace Appended

theorem car_eq (h : s.Appended t last new kind v) {d : CellId} (hd : s.Has (.cell d)) :
    (t.cell d).car = (s.cell d).car := by
  by_cases hdl : d = last
  · rw [hdl, h.linked]
  · rw [h.kept d hd hdl]

/-- A chain that leads to the last cell goes on to the new one. -/
theorem ends_snoc (h : s.Appended t last new kind v) (hnone : s.next last = none) {m : List CellId}
    (hm : Ends s.next x m) (hin : ∀ d ∈ m, s.Has (.cell d)) (hlast : last ∈ m) : Ends t.next x (m ++ [new]) := by
  refine hm.snoc hlast hnone ?_ ?_ fun d hd hne => ?_
  · rw [next, h.linked]
  · rw [next, h.made]
  · rw [next, next, h.kept d (hin d hd) hne]

theorem longer (h : s.Appended t last new kind v) (hs : s.Linked) (hnone : s.next last = none) (hx : s.Has (.cell x))
    (hreach : s.Behind x last) :
    s.cyclic x = false ∧ t.cyclic x = false ∧ t.elements x = s.elements x ++ [v] ∧ t.length x = s.length x + 1 := by
  obtain ⟨i, hi⟩ := reflTransGen_iff.mp hreach
  obtain ⟨m, hm⟩ := ends_of_follow_none (n := i + 1) (by rw [follow_succ, hi, Option.bind_some, hnone])
  have hspine : s.spine x = m := spine_of_ends hm
  have hin : ∀ d ∈ m, s.Has (.cell d) := fun d hd => hs.has_of_behind hx (mem_spine_iff.mp (by rwa [hspine]))
  have hsnoc := h.ends_snoc hnone hm hin (by rwa [← hspine, mem_spine_iff])
  refine ⟨cyclic_of_ends hm, cyclic_of_ends hsnoc, ?_, ?_⟩
  · rw [elements, elements, hspine, spine_of_ends hsnoc, List.map_append, List.map_singleton, h.made]
    congr 1
    exact List.map_congr_left fun d hd => h.car_eq (hin d hd)
  · rw [length, length, extent, extent, extent_of_ends s.bounded hm, extent_of_ends t.bounded hsnoc,
      List.length_append, List.length_singleton]

theorem same (h : s.Appended t last new kind v) (hs : s.Linked) (hx : s.Has (.cell x)) (hreach : ¬ s.Behind x last) :
    t.cyclic x = s.cyclic x ∧ t.elements x = s.elements x ∧ t.length x = s.length x := by
  have hcell : ∀ d, s.Behind x d → t.cell d = s.cell d := by
    intro d hd
    exact h.kept d (hs.has_of_behind hx hd) fun e => hreach (e ▸ hd)
  have hnext : ∀ i d, follow s.next i x = some d → t.next d = s.next d := by
    intro i d hd
    rw [next, next, hcell d (reflTransGen_iff.mpr ⟨i, hd⟩)]
  have hextent : t.extent x = s.extent x := extent_congr s.bounded t.bounded hnext
  have hspine : t.spine x = s.spine x := points_congr s.bounded t.bounded hnext
  refine ⟨by rw [cyclic, cyclic, hextent], ?_, by rw [length, length, hextent]⟩
  rw [elements, elements, hspine]
  exact List.map_congr_left fun d hd => by rw [hcell d (mem_spine_iff.mp hd)]

end Appended

/-- Nothing can be appended to a chain that does not end, and the store stays as it is. Appending to one that ends makes
one cell, which has the kind of the first cell of the chain, and links it behind the last one. That is seen from every
cell of the store whose chain leads to this last one: it has the new element behind its old ones. All other chains have
the same elements as before, and are cyclic or not as before. -/
theorem append_shared (hs : s.Linked) {c : CellId} (hc : s.Has (.cell c)) (v : Value) :
    ((¬ ∃ l, Ends s.next c l) → append c v s = .error .cyclicList s) ∧
    ∀ l, Ends s.next c l → ∃ t last new, append c v s = .ok () t ∧ last ∈ l ∧ s.next last = none ∧
      s.Appended t last new (s.cell c).kind v ∧
      ∀ x, s.Has (.cell x) →
        (s.Behind x last → s.cyclic x = false ∧ t.cyclic x = false ∧ t.elements x = s.elements x ++ [v] ∧
          t.length x = s.length x + 1) ∧
        (¬ s.Behind x last → t.cyclic x = s.cyclic x ∧ t.elements x = s.elements x ∧ t.length x = s.length x) := by
  refine ⟨fun h => append_of_not_ends h v, fun l hl => ?_⟩
  have hin : ∀ d ∈ l, s.Has (.cell d) := by
    intro d hd
    rw [← spine_of_ends hl] at hd
    exact hs.has_of_behind hc (mem_spine_iff.mp hd)
  obtain ⟨t, last, new, hrun, hlast, hnone, happ⟩ := append_of_ends hl hin v
  exact ⟨t, last, new, hrun, hlast, hnone, happ, fun x hx =>
    ⟨fun hreach => happ.longer hs hnone hx hreach, fun hreach => happ.same hs hx hreach⟩⟩

/-- A list of three cells, the first one a block; a fourth cell that leads to the second of them; and two cells that
lead to each other, with one in front that leads to them. -/
def aliasedLists : Store where
  cells := #[{ kind := .block, cdr := some ⟨1⟩ }, { cdr := some ⟨2⟩ }, {}, { cdr := some ⟨1⟩ },
    { cdr := some ⟨5⟩ }, { cdr := some ⟨6⟩ }, { cdr := some ⟨5⟩ }]

/-- The list is appended to itself, which is seen from the cell that shares its rest and not from those that run into
the cycle. To them nothing can be appended. -/
theorem append_shared_aliasedLists :
    aliasedLists.Linked ∧ Ends aliasedLists.next ⟨0⟩ [⟨0⟩, ⟨1⟩, ⟨2⟩] ∧
    append ⟨4⟩ none aliasedLists = .error .cyclicList aliasedLists ∧
    ∃ t new, append ⟨0⟩ (some (.cell ⟨0⟩)) aliasedLists = .ok () t ∧
      t.cell new = { kind := .block, car := some (.cell ⟨0⟩), cdr := none } ∧
      t.elements ⟨3⟩ = [none, none, none, some (.cell ⟨0⟩)] ∧ t.length ⟨0⟩ = 4 ∧
      t.elements ⟨4⟩ = [none, none, none] ∧ t.cyclic ⟨4⟩ = true := by
  have hlinked : aliasedLists.Linked := by
    intro c d h
    have hall : ∀ i < 7, ∀ d ∈ aliasedLists.next ⟨i⟩, aliasedLists.Has (.cell d) := by decide
    exact hall c.index (has_of_cdr h) d h
  have hends : Ends aliasedLists.next ⟨0⟩ [⟨0⟩, ⟨1⟩, ⟨2⟩] := .cons rfl (.cons rfl (.last rfl))
  have hcyclic := (append_shared hlinked (c := ⟨4⟩) (by decide) none).1 ((cyclic_iff _ _).mp (by decide))
  obtain ⟨t, last, new, hrun, hlast, hnone, happ, hseen⟩ :=
    (append_shared hlinked (c := ⟨0⟩) (by decide) (some (.cell ⟨0⟩))).2 _ hends
  have htwo : ∀ d ∈ [⟨0⟩, ⟨1⟩, ⟨2⟩], aliasedLists.next d = none → d = ⟨2⟩ := by decide
  obtain rfl := htwo last hlast hnone
  have hbehind : ∀ x, ⟨2⟩ ∈ aliasedLists.spine x → aliasedLists.Behind x ⟨2⟩ := fun _ => mem_spine_iff.mp
  obtain ⟨-, -, hthird, -⟩ := (hseen ⟨3⟩ (by decide)).1 (hbehind _ (by decide))
  obtain ⟨-, -, -, hlength⟩ := (hseen ⟨0⟩ (by decide)).1 (hbehind _ (by decide))
  obtain ⟨hcycle, hround, -⟩ := (hseen ⟨4⟩ (by decide)).2 fun h => absurd (mem_spine_iff.mpr h) (by decide)
  exact ⟨hlinked, hends, hcyclic, t, new, hrun, happ.made, hthird, hlength, hround, hcycle⟩

end ScriptCore.Store
