import ScriptCore.Proofs.Positions

/-!
# Positions and traversals

An element of a list is found by walking to its position, by a traversal that hands out one element after another, or
in the elements of the different cells, of which there are as many as the race along the chain has counted. The three
ways agree on chains of every shape, also where they end and where they go round a cycle (`indexing_exact`).

A traversal stands at a link. One step of it is `nextItem`, and `item` is what it gives on a call.
-/
namespace ScriptCore

namespace Chain

/-- The points in front of the cycle are as many as the length says: a cycle of the remaining points cannot be entered
at two places. -/
theorem Loops.lead_unique {α : Type} {next : α → Option α} {a : α} {size lead lead' : Nat}
    (h : Loops next a lead (size - lead)) (h' : Loops next a lead' (size - lead')) : lead = lead' := by
  have hpos := h.pos
  have hpos' := h'.pos
  have hback : follow next size a = follow next lead a := by
    rw [← h.closes]
    congr 1
    omega
  have hback' : follow next size a = follow next lead' a := by
    rw [← h'.closes]
    congr 1
    omega
  have hsame : follow next lead a = follow next lead' a := hback.symm.trans hback'
  rcases Nat.lt_trichotomy lead lead' with hlt | heq | hgt
  · exact absurd hsame (h.apart _ _ hlt (by omega))
  · exact heq
  · exact absurd hsame.symm (h.apart _ _ hgt (by omega))

end Chain

namespace Store

open Chain

variable {s : Store} {c : CellId} {i : Nat}

/-! ## Traversals -/

/-- One step of a traversal: the element of the cell that it stands at, and the link behind that cell. Behind the last
cell there is nothing, however often it is asked for. -/
def nextItem (s : Store) : Option CellId → Option Value × Option CellId
  | none => (none, none)
  | some c => (some (s.cell c).car, s.next c)

/-- What a traversal gives on call `i`, counted from zero. -/
def item (s : Store) : Nat → Option CellId → Option Value
  | 0, link => (s.nextItem link).1
  | i + 1, link => s.item i (s.nextItem link).2

theorem item_none (s : Store) (i : Nat) : s.item i none = none := by
  induction i with
  | zero => rfl
  | succ i ih => exact ih

/-- A traversal walks from position to position. -/
theorem item_eq (s : Store) (i : Nat) (c : CellId) :
    s.item i (some c) = (s.nthCell c i).map fun d => (s.cell d).car := by
  induction i generalizing c with
  | zero => rfl
  | succ i ih =>
    rw [item, nextItem, nthCell, follow]
    cases s.next c with
    | none => exact item_none s i
    | some d => exact ih d

/-- The first elements of a traversal are those that its first calls give. -/
theorem getElem?_take (s : Store) (n i : Nat) (c : CellId) :
    (s.take n c)[i]? = if i < n then s.item i (some c) else none := by
  rw [take, List.getElem?_map, getElem?_walk, item_eq, nthCell]
  split <;> rfl

/-! ## Positions in the first round -/

theorem exists_nthCell (h : i < s.length c) : ∃ d, s.nthCell c i = some d :=
  follow_of_lt s.bounded h

theorem nth_of_nthCell {d : CellId} (h : s.nthCell c i = some d) : s.nth c i = (s.cell d).car := by
  rw [nth, h, Option.bind_some]

theorem length_elements (s : Store) (c : CellId) : (s.elements c).length = s.length c := by
  rw [elements, List.length_map]
  exact length_points s.bounded c

/-- The elements of the different cells are the first ones of a traversal, as many as there are cells. -/
theorem getElem?_elements (h : i < s.length c) : (s.elements c)[i]? = s.item i (some c) := by
  have htake : s.elements c = s.take (s.length c) c := rfl
  rw [htake, getElem?_take, if_pos h]

/-! ## Positions behind the first round -/

theorem exists_loops (h : ¬ ∃ l, Ends s.next c l) :
    ∃ lead, lead < s.length c ∧ Loops s.next c lead (s.length c - lead) := by
  obtain ⟨lead, period, hloops⟩ := (ends_or_loops s.bounded c).resolve_left h
  have hpos := hloops.pos
  have hperiod : s.length c - lead = period := by
    rw [length_of_loops hloops]
    omega
  refine ⟨lead, ?_, hperiod ▸ hloops⟩
  rw [length_of_loops hloops]
  omega

theorem fetch_of_loops {lead period : Nat} (h : Loops s.next c lead period) (i : Nat) :
    s.fetch c i = .ok (s.nth c i) := by
  obtain ⟨d, hd⟩ := Option.ne_none_iff_exists'.mp (h.ne_none i)
  exact fetch_of_nthCell hd

/-- A position behind the first round is visited in place of one of the first round, which lies on the cycle. -/
theorem home_of_length_le {lead : Nat} (h : Loops s.next c lead (s.length c - lead)) (hi : s.length c ≤ i) :
    home lead (s.length c - lead) i = lead + (i - lead) % (s.length c - lead) := by
  have hpos := h.pos
  exact if_neg (by omega)

/-! ## All positions -/

/-- Below the length there is a cell at each position, and its element is what every way of access gives. Past the
length a chain that ends has nothing, and refuses the access with the position and the length. A chain that runs into a
cycle has, in front of it, as many cells as one number says, and refuses no access: behind the first round it goes on
as at the position of the first round that is congruent to the one asked for. A traversal gives the elements by
position, as long as there are cells, and the short names stand for the positions one, two and three. -/
theorem indexing_exact (s : Store) (c : CellId) (i : Nat) :
    (s.elements c).length = s.length c ∧
    (i < s.length c → ∃ d, s.nthCell c i = some d ∧ (s.cell d).car = s.nth c i ∧ s.fetch c i = .ok (s.nth c i) ∧
      (s.elements c)[i]? = some (s.nth c i)) ∧
    (s.length c ≤ i → (∃ l, Ends s.next c l) → s.nth c i = none ∧ s.nthCell c i = none ∧
      s.fetch c i = .error (.indexOutOfRange i (s.length c))) ∧
    ((¬ ∃ l, Ends s.next c l) → ∃! lead, lead < s.length c ∧ Loops s.next c lead (s.length c - lead)) ∧
    (∀ lead, Loops s.next c lead (s.length c - lead) →
      s.fetch c i = .ok (s.nth c i) ∧
      (s.length c ≤ i →
        let j := lead + (i - lead) % (s.length c - lead)
        j < s.length c ∧ s.nth c i = s.nth c j ∧ s.nthCell c i = s.nthCell c j ∧ s.fetch c i = s.fetch c j)) ∧
    (s.item i (some c) = (s.nthCell c i).map fun _ => s.nth c i) ∧
    (∀ n, (s.take n c)[i]? = if i < n then s.item i (some c) else none) ∧
    (s.cadr c = s.nth c 1 ∧ s.caddr c = s.nth c 2 ∧ s.cadddr c = s.nth c 3) ∧
    s.next c = s.nthCell c 1 ∧ s.cddr c = s.nthCell c 2 ∧ s.cdddr c = s.nthCell c 3 := by
  have hitem : s.item i (some c) = (s.nthCell c i).map fun _ => s.nth c i := by
    rw [item_eq, nth]
    cases s.nthCell c i <;> rfl
  have hcdr : s.nthCell c 1 = s.next c := follow_succ 0 c
  have hcddr : s.nthCell c 2 = s.cddr c := by
    rw [cddr, ← hcdr]
    exact follow_succ 1 c
  have hcdddr : s.nthCell c 3 = s.cdddr c := by
    rw [cdddr, ← hcddr]
    exact follow_succ 2 c
  refine ⟨length_elements s c, fun hi => ?_, fun hi hends => ?_, fun hendless => ?_, fun lead hloops => ?_, hitem,
    fun n => getElem?_take s n i c, ⟨rfl, rfl, rfl⟩, hcdr.symm, hcddr.symm, hcdddr.symm⟩
  · obtain ⟨d, hd⟩ := exists_nthCell hi
    refine ⟨d, hd, (nth_of_nthCell hd).symm, fetch_of_nthCell hd, ?_⟩
    rw [getElem?_elements hi, hitem, hd, Option.map_some]
  · obtain ⟨l, hl⟩ := hends
    have hnone := (nthCell_eq_none_iff (cyclic_of_ends hl)).mpr hi
    exact ⟨nth_of_nthCell_none hnone, hnone, fetch_of_nthCell_none hnone⟩
  · obtain ⟨lead, hlead, hloops⟩ := exists_loops hendless
    exact ⟨lead, ⟨hlead, hloops⟩, fun other hother => hother.2.lead_unique hloops⟩
  · refine ⟨fetch_of_loops hloops i, fun hi => ?_⟩
    have hhome := home_of_length_le hloops hi
    have hlt := hloops.home_lt i
    have hnth := nth_home hloops i
    have hcell : s.nthCell c (home lead (s.length c - lead) i) = s.nthCell c i := hloops.follow_home i
    have hpos := hloops.pos
    rw [hhome] at hlt hnth hcell
    refine ⟨by omega, hnth.symm, hcell.symm, ?_⟩
    rw [fetch_of_loops hloops, fetch_of_loops hloops, hnth]

/-- A list of three cells whose last one leads back to the second, and a list of two cells. -/
def lassoAndList : Store where
  cells := #[
    { car := some (.atom ⟨0⟩), cdr := some ⟨1⟩ }, { car := some (.atom ⟨1⟩), cdr := some ⟨2⟩ }, { cdr := some ⟨1⟩ },
    { car := some (.atom ⟨1⟩), cdr := some ⟨4⟩ }, { car := some (.atom ⟨0⟩) }]
  atoms := #[.datum (.integer 7), .datum (.boolean true)]

/-- In the first list, position six is that of the third cell, whose element is nil; the second list has no position
two. -/
theorem indexing_lassoAndList :
    Loops lassoAndList.next ⟨0⟩ 1 (lassoAndList.length ⟨0⟩ - 1) ∧
    lassoAndList.nthCell ⟨0⟩ 6 = lassoAndList.nthCell ⟨0⟩ 2 ∧ lassoAndList.fetch ⟨0⟩ 6 = .ok none ∧
    (∃ l, Ends lassoAndList.next ⟨3⟩ l) ∧ lassoAndList.fetch ⟨3⟩ 2 = .error (.indexOutOfRange 2 2) ∧
    lassoAndList.nth ⟨3⟩ 2 = none ∧ (lassoAndList.elements ⟨3⟩)[1]? = some (some (.atom ⟨0⟩)) := by
  have hloops : Loops lassoAndList.next ⟨0⟩ 1 (lassoAndList.length ⟨0⟩ - 1) := by
    refine ⟨by decide, by decide, by decide, ?_⟩
    have hpairs : ∀ j < 3, ∀ i < j, follow lassoAndList.next i ⟨0⟩ ≠ follow lassoAndList.next j ⟨0⟩ := by decide
    exact fun i j hij hj => hpairs j hj i hij
  have hends : ∃ l, Ends lassoAndList.next ⟨3⟩ l := ⟨[⟨3⟩, ⟨4⟩], .cons rfl (.last rfl)⟩
  obtain ⟨-, -, -, -, hround, -⟩ := indexing_exact lassoAndList ⟨0⟩ 6
  obtain ⟨-, -, hpast, -⟩ := indexing_exact lassoAndList ⟨3⟩ 2
  obtain ⟨-, hfirst, -⟩ := indexing_exact lassoAndList ⟨3⟩ 1
  obtain ⟨-, -, hcell, hfetch⟩ := (hround 1 hloops).2 (by decide)
  obtain ⟨hnil, -, hrefused⟩ := hpast (by decide) hends
  obtain ⟨-, -, -, -, helement⟩ := hfirst (by decide)
  exact ⟨hloops, hcell, hfetch, hends, hrefused, hnil, helement⟩

end Store

end ScriptCore
