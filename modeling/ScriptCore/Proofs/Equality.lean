import Mathlib.Data.List.Forall2
import Mathlib.Data.List.ProdSigma
import Mathlib.Data.List.Nodup
import ScriptCore.Proofs.Tree
import ScriptCore.Store.Equality

/-!
# Values that compare as equal

A relation on values is a `Bisimulation` when values that it relates are both nil, the same object, the same
plain data, or lists whose chains have the same shape and whose elements are related one by one. Comparing
finds related values equal (`equal_of_bisimulation`), also on cyclic structures: a pair of cells that is met
again counts as equal, and since no pair is open twice, the levels of nesting last.

* `equal_of_unfolds`: values that unfold to the same tree are equal.
-/
namespace ScriptCore.Store

variable {s : Store}

/-- What one step of comparing asks of two values, with `R` for the elements of lists. -/
inductive Matches (s : Store) (R : Value → Value → Prop) : Value → Value → Prop
  | same (v : Value) : Matches s R v v
  | datum {a b : AtomId} {x : Datum} (ha : s.atom a = .datum x) (hb : s.atom b = .datum x) :
      Matches s R (some (.atom a)) (some (.atom b))
  | cell {c d : CellId} (hc : s.Has (.cell c)) (hd : s.Has (.cell d)) (kind : (s.cell c).kind = (s.cell d).kind)
      (extent : s.extent c = s.extent d) (elements : List.Forall₂ R (s.elements c) (s.elements d)) :
      Matches s R (some (.cell c)) (some (.cell d))

/-- Every pair of the relation passes a step of comparing. -/
def Bisimulation (s : Store) (R : Value → Value → Prop) : Prop :=
  ∀ v w, R v w → s.Matches R v w

theorem allM_eq_true {α σ : Type} {f : α → StateM σ Bool} {l : List α} {st : σ}
    (h : ∀ x ∈ l, f x st = (true, st)) : l.allM f st = (true, st) := by
  induction l with
  | nil => rfl
  | cons x l ih =>
    have hx := h x (by simp)
    have hl := ih fun y hy => h y (by simp [hy])
    simp only [List.allM, bind, StateT.bind, hx, hl]

/-- Different pairs of cells that the store has. -/
def Pairs (s : Store) (open_ : List (CellId × CellId)) : Prop :=
  open_.Nodup ∧ ∀ p ∈ open_, s.Has (.cell p.1) ∧ s.Has (.cell p.2)

theorem Pairs.length_le {l : List (CellId × CellId)} (h : s.Pairs l) : l.length ≤ s.cells.size * s.cells.size := by
  let ids := (List.range s.cells.size).map CellId.mk
  have hsub : l ⊆ ids.product ids := by
    rintro ⟨⟨i⟩, ⟨j⟩⟩ hp
    obtain ⟨hi, hj⟩ := h.2 _ hp
    simp only [Has] at hi hj
    simp [ids, hi, hj]
  have hlen := (List.Nodup.subperm h.1 hsub).length_le
  rw [show ids.product ids = ids ×ˢ ids from rfl, List.length_product] at hlen
  simpa [ids] using hlen

theorem compare_self (n : Nat) (v : Value) (pairs : List (CellId × CellId)) :
    s.compare n v v pairs = (true, pairs) := by
  cases v with
  | none => cases n <;> rfl
  | some r =>
    cases n with
    | zero => simp [compare]; rfl
    | succ n => cases r <;> simp [compare] <;> rfl

theorem compare_datum {n : Nat} {a b : AtomId} {x : Datum} (ha : s.atom a = .datum x) (hb : s.atom b = .datum x)
    (pairs : List (CellId × CellId)) :
    s.compare (n + 1) (some (.atom a)) (some (.atom b)) pairs = (true, pairs) := by
  by_cases hab : a = b
  · subst hab; exact compare_self _ _ _
  · simp [compare, hab, ha, hb]; rfl

/-- A pair of different cells is open while their elements are compared. -/
theorem compare_cells {n : Nat} {c d : CellId} {pairs : List (CellId × CellId)} (hcd : c ≠ d)
    (kind : (s.cell c).kind = (s.cell d).kind) (extent : s.extent c = s.extent d) (hmem : (c, d) ∉ pairs)
    (h : ∀ p ∈ (s.elements c).zip (s.elements d), s.compare n p.1 p.2 ((c, d) :: pairs) = (true, (c, d) :: pairs)) :
    s.compare (n + 1) (some (.cell c)) (some (.cell d)) pairs = (true, pairs) := by
  have hall := allM_eq_true (f := fun p : Value × Value => s.compare n p.1 p.2) h
  simp [compare, hcd, kind, extent]
  change (if (c, d) ∈ pairs then _ else _ : CompareM Bool) pairs = _
  rw [if_neg hmem]
  change (let r := (List.allM (fun p : Value × Value => s.compare n p.1 p.2) _ : CompareM Bool) ((c, d) :: pairs)
    (r.1, r.2.erase (c, d))) = _
  rw [hall]
  simp only [List.erase_cons_head]

/-- Cells of one shape are equal if their elements are, which matters only where the pair is new. -/
theorem compare_of_elements {n : Nat} {c d : CellId} {pairs : List (CellId × CellId)}
    (kind : (s.cell c).kind = (s.cell d).kind) (extent : s.extent c = s.extent d)
    (h : c ≠ d → (c, d) ∉ pairs → ∀ p ∈ (s.elements c).zip (s.elements d),
      s.compare n p.1 p.2 ((c, d) :: pairs) = (true, (c, d) :: pairs)) :
    s.compare (n + 1) (some (.cell c)) (some (.cell d)) pairs = (true, pairs) := by
  by_cases hcd : c = d
  · subst hcd; exact compare_self _ _ _
  by_cases hmem : (c, d) ∈ pairs
  · simp [compare, hcd, kind]
    change (if (c, d) ∈ pairs then _ else _ : CompareM Bool) pairs = _
    rw [if_pos hmem]
    rfl
  · exact compare_cells hcd kind extent hmem (h hcd hmem)

theorem Pairs.cons {c d : CellId} {pairs : List (CellId × CellId)} (hp : s.Pairs pairs) (hmem : (c, d) ∉ pairs)
    (hc : s.Has (.cell c)) (hd : s.Has (.cell d)) : s.Pairs ((c, d) :: pairs) :=
  ⟨List.nodup_cons.mpr ⟨hmem, hp.1⟩, List.forall_mem_cons.mpr ⟨⟨hc, hd⟩, hp.2⟩⟩

/-- Related values compare as equal, and the open pairs are as before. Each new pair takes a level, so levels
and open pairs together stay above the number of pairs that there are. -/
theorem compare_of_bisimulation {R : Value → Value → Prop} (hR : s.Bisimulation R) {n : Nat} {v w : Value}
    {pairs : List (CellId × CellId)} (hp : s.Pairs pairs) (hn : s.cells.size * s.cells.size < n + pairs.length)
    (h : R v w) : s.compare n v w pairs = (true, pairs) := by
  induction n generalizing v w pairs with
  | zero => have := hp.length_le; omega
  | succ n ih =>
    cases hR v w h with
    | same v => exact compare_self _ _ _
    | datum ha hb => exact compare_datum ha hb _
    | cell hc hd kind extent elements =>
      refine compare_of_elements kind extent fun _ hmem p hp' => ih (hp.cons hmem hc hd) ?_ (List.forall₂_zip elements hp')
      simp only [List.length_cons]; omega

theorem equal_of_bisimulation {R : Value → Value → Prop} (hR : s.Bisimulation R) {v w : Value} (h : R v w) :
    s.equal v w = true := by
  have hdepth : s.cells.size * s.cells.size < s.compareDepth := by
    have hpos : 0 < s.atoms.size * s.atoms.size + 1 := Nat.succ_pos _
    have := Nat.le_mul_of_pos_right (s.cells.size * s.cells.size + 1) hpos
    unfold compareDepth
    omega
  have hnone : s.Pairs [] := ⟨.nil, by simp⟩
  have hrun := compare_of_bisimulation hR (n := s.compareDepth) hnone hdepth h
  rw [equal, StateT.run, hrun]

/-- Lists whose chains end and have related elements, one by one, are of one shape. -/
theorem extent_and_elements {t : Store} {R : Value → Value → Prop} {c d : CellId} {l l' : List CellId}
    (hl : Chain.EndsBehind s.next (s.cell c).cdr l) (hl' : Chain.EndsBehind t.next (t.cell d).cdr l')
    (car : R (s.cell c).car (t.cell d).car)
    (cars : List.Forall₂ (fun c d => R (s.cell c).car (t.cell d).car) l l') :
    s.extent c = t.extent d ∧ List.Forall₂ R (s.elements c) (t.elements d) := by
  have hc : Chain.Ends s.next c (c :: l) := Chain.ends_cons_iff.mpr ⟨rfl, hl⟩
  have hd : Chain.Ends t.next d (d :: l') := Chain.ends_cons_iff.mpr ⟨rfl, hl'⟩
  constructor
  · rw [extent, extent, Chain.extent_of_ends s.bounded hc, Chain.extent_of_ends t.bounded hd]
    simp [cars.length_eq]
  · simp only [elements, spine_of_ends hc, spine_of_ends hd, List.forall₂_map_left_iff, List.forall₂_map_right_iff]
    exact .cons car cars

/-! ## Values that look alike -/

/-- Two values, in two stores, are built from cells of the same kinds down to the same plain data, or to the
same objects of `K`. In the second slot of a cell only the former may stand. -/
inductive Alike (s t : Store) (K : Ref → Prop) : Place → Value → Value → Prop
  | nil {p : Place} : Alike s t K p none none
  | same {r : Ref} (h : K r) : Alike s t K .first (some r) (some r)
  | datum {a b : AtomId} {x : Datum} (ha : s.Has (.atom a)) (hb : t.Has (.atom b)) (hx : s.atom a = .datum x)
      (hy : t.atom b = .datum x) : Alike s t K .first (some (.atom a)) (some (.atom b))
  | cell {p : Place} {c d : CellId} (hc : s.Has (.cell c)) (hd : t.Has (.cell d))
      (kind : (s.cell c).kind = (t.cell d).kind) (car : Alike s t K .first (s.cell c).car (t.cell d).car)
      (cdr : Alike s t K .second (.ofLink (s.cell c).cdr) (.ofLink (t.cell d).cdr)) :
      Alike s t K p (some (.cell c)) (some (.cell d))

namespace Alike

variable {t : Store} {K : Ref → Prop} {p : Place} {v w : Value}

/-- Chains that look alike end, and their first slots look alike one by one. -/
theorem chains {link link' : Option CellId} (h : Alike s t K .second (.ofLink link) (.ofLink link')) :
    ∃ l l', Chain.EndsBehind s.next link l ∧ Chain.EndsBehind t.next link' l' ∧
      List.Forall₂ (fun c d => Alike s t K .first (s.cell c).car (t.cell d).car) l l' := by
  generalize hp : Place.second = p at h
  generalize hv : Value.ofLink link = v at h
  generalize hw : Value.ofLink link' = w at h
  induction h generalizing link link' with
  | nil =>
    cases link <;> cases hv
    cases link' <;> cases hw
    exact ⟨[], [], rfl, rfl, .nil⟩
  | same | datum => cases hp
  | @cell p c d hc hd kind car cdr _ ih =>
    cases link <;> cases hv
    cases link' <;> cases hw
    obtain ⟨l, l', hl, hl', hall⟩ := ih rfl rfl rfl
    exact ⟨c :: l, d :: l', Chain.ends_cons_iff.mpr ⟨rfl, hl⟩, Chain.ends_cons_iff.mpr ⟨rfl, hl'⟩, .cons car hall⟩

/-- So do the elements of lists that look alike. -/
theorem elements {c d : CellId} (car : Alike s t K .first (s.cell c).car (t.cell d).car)
    (cdr : Alike s t K .second (.ofLink (s.cell c).cdr) (.ofLink (t.cell d).cdr)) :
    s.extent c = t.extent d ∧ List.Forall₂ (Alike s t K .first) (s.elements c) (t.elements d) := by
  obtain ⟨l, l', hl, hl', hall⟩ := cdr.chains
  exact extent_and_elements hl hl' car hall

/-- Making further objects changes nothing. -/
theorem extend {s' t' : Store} (h : Alike s t K p v w) (hs : s.Extends s') (ht : t.Extends t') :
    Alike s' t' K p v w := by
  induction h with
  | nil => exact .nil
  | same hr => exact .same hr
  | datum ha hb hx hy =>
    exact .datum (hs.has ha) (ht.has hb) ((hs.atom ha).trans hx) ((ht.atom hb).trans hy)
  | cell hc hd kind _ _ ihcar ihcdr =>
    rw [← hs.cell hc, ← ht.cell hd] at kind ihcar ihcdr
    exact .cell (hs.has hc) (ht.has hd) kind ihcar ihcdr

theorem bisimulation (s : Store) (K : Ref → Prop) : s.Bisimulation (Alike s s K .first) := by
  intro v w h
  cases h with
  | nil => exact .same _
  | same => exact .same _
  | datum _ _ hx hy => exact .datum hx hy
  | cell hc hd kind car cdr => exact .cell hc hd kind (elements car cdr).1 (elements car cdr).2

theorem of_unfolds {x : Tree p} {rs qs : List Ref} (h : s.Unfolds v x rs) (k : t.Unfolds w x qs)
    (hs : ∀ r ∈ rs, s.Has r) (ht : ∀ r ∈ qs, t.Has r) : Alike s t K p v w := by
  induction h generalizing w qs with
  | nil => cases k; exact .nil
  | leaf ha => cases k with | leaf hb => exact .datum (hs _ (by simp)) (ht _ (by simp)) ha hb
  | cell hx hy ihx ihy =>
    generalize hz : Tree.cell _ _ _ = z at k
    cases k with
    | nil | leaf => cases hz
    | cell kx ky =>
      rw [Tree.cell.injEq] at hz
      obtain ⟨hkind, rfl, rfl⟩ := hz
      refine .cell (hs _ (by simp)) (ht _ (by simp)) hkind (ihx kx ?_ ?_) (ihy ky ?_ ?_)
      all_goals intro r hr
      · exact hs r (by simp [hr])
      · exact ht r (by simp [hr])
      · exact hs r (by simp [hr])
      · exact ht r (by simp [hr])

end Alike

theorem equal_of_alike {K : Ref → Prop} {v w : Value} (h : Alike s s K .first v w) : s.equal v w = true :=
  equal_of_bisimulation (Alike.bisimulation s K) h

theorem equal_of_unfolds {v w : Value} {x : Tree .first} {rs qs : List Ref} (h : s.Unfolds v x rs)
    (k : s.Unfolds w x qs) (hrs : ∀ r ∈ rs, s.Has r) (hqs : ∀ r ∈ qs, s.Has r) : s.equal v w = true :=
  equal_of_alike (K := fun _ => False) (.of_unfolds h k hrs hqs)

end ScriptCore.Store
