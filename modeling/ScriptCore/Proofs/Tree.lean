import ScriptCore.Proofs.Heap
import ScriptCore.Proofs.Wire
import ScriptCore.Serial.Write

/-!
# Values as trees

A value without cycles that is built from cells and plain data unfolds to a finite tree, which forgets which
parts are shared. Trees have a wire form of their own (`encode`), said without a store and without a limit on
nesting: a tree is its marker or header, then what it holds. Since a chain of cells is written cell by cell
with a header in front of each, what stands behind a cell is just the wire form of the rest of the chain.

`Unfolds s v x rs` says that `v` unfolds to `x` in `s`, meeting the objects `rs` in the order of writing; an
object that is shared occurs in `rs` more than once. `Built s t v x` says that `v` unfolds to `x` in `t`
through objects that are new since `s` and of which none is shared.

* `Unfolds.unique`: the tree is determined by the value.
* `Unfolds.congr`: it only depends on the objects met.
* `Unfolds.mem_iff`: the objects met are those that can be reached.
* `Unfolds.acyclic`: a value that unfolds has no cycle.
-/
namespace ScriptCore

open Wire

/-- Where a tree stands: in a first slot anything may stand, in a second one only a cell or nothing. -/
inductive Place where
  | first
  | second

/-- What a value unfolds to. -/
inductive Tree : Place → Type where
  | nil {p : Place} : Tree p
  | leaf (d : Datum) : Tree .first
  | cell {p : Place} (kind : CellKind) (car : Tree .first) (cdr : Tree .second) : Tree p

namespace Tree

variable {p : Place}

/-- How deeply values are nested in a tree. Only first slots nest. -/
def depth {p : Place} : Tree p → Nat
  | .nil => 1
  | .leaf _ => 1
  | .cell _ car cdr => max (car.depth + 1) cdr.depth

/-- The number of cells and leaves. -/
def size {p : Place} : Tree p → Nat
  | .nil => 0
  | .leaf _ => 1
  | .cell _ car cdr => car.size + cdr.size + 1

/-- All texts and names have a wire form. -/
def Fits {p : Place} : Tree p → Prop
  | .nil => True
  | .leaf d => d.item.Fits
  | .cell _ car cdr => car.Fits ∧ cdr.Fits

/-- The wire form. -/
def encode {p : Place} : Tree p → List UInt8
  | .nil => (Item.header .nil).bytes
  | .leaf d => (Item.header d.header).bytes ++ d.item.bytes
  | .cell kind car cdr =>
    (Item.header .cell).bytes ++ ((Item.u8 kind.byte).bytes ++ (car.encode ++ cdr.encode))

theorem depth_pos (x : Tree p) : 0 < x.depth := by
  induction x with
  | nil | leaf => simp [depth]
  | cell kind car cdr hcar hcdr => simp only [depth]; omega

end Tree

namespace Store

/-- The value unfolds to a tree, meeting the objects of the list. -/
inductive Unfolds (s : Store) : {p : Place} → Value → Tree p → List Ref → Prop
  | nil {p : Place} : Unfolds s (p := p) none .nil []
  | leaf {a : AtomId} {d : Datum} (h : s.atom a = .datum d) : Unfolds s (some (.atom a)) (.leaf d) [.atom a]
  | cell {p : Place} {c : CellId} {x : Tree .first} {y : Tree .second} {xs ys : List Ref}
      (hx : Unfolds s (s.cell c).car x xs) (hy : Unfolds s (.ofLink (s.cell c).cdr) y ys) :
      Unfolds s (p := p) (some (.cell c)) (.cell (s.cell c).kind x y) (.cell c :: (xs ++ ys))

/-- The value unfolds to a tree in `t`, through objects that `s` does not have and that are all different. -/
def Built {p : Place} (s t : Store) (v : Value) (x : Tree p) : Prop :=
  ∃ rs, Unfolds t v x rs ∧ rs.Nodup ∧ ∀ r ∈ rs, ¬ s.Has r ∧ t.Has r

namespace Unfolds

variable {s t : Store} {p : Place} {v : Value} {x : Tree p} {rs : List Ref}

theorem unique {y : Tree p} {qs : List Ref} (h : Unfolds s v x rs) (k : Unfolds s v y qs) : x = y ∧ rs = qs := by
  induction h generalizing qs with
  | nil => cases k; exact ⟨rfl, rfl⟩
  | leaf ha =>
    cases k with
    | leaf hb => rw [ha] at hb; cases hb; exact ⟨rfl, rfl⟩
  | cell _ _ ihx ihy =>
    cases k with
    | cell hx hy =>
      obtain ⟨rfl, rfl⟩ := ihx hx
      obtain ⟨rfl, rfl⟩ := ihy hy
      exact ⟨rfl, rfl⟩

theorem congr (h : Unfolds s v x rs) (hs : ∀ r ∈ rs, s.SameAt t r) : Unfolds t v x rs := by
  induction h with
  | nil => exact .nil
  | @leaf a d ha => exact .leaf ((hs (.atom a) (by simp)).trans ha)
  | @cell p c x y xs ys _ _ ihx ihy =>
    have hc : t.cell c = s.cell c := hs (.cell c) (by simp)
    have hx := ihx fun r hr => hs r (by simp [hr])
    have hy := ihy fun r hr => hs r (by simp [hr])
    rw [← hc] at hx hy ⊢
    exact .cell hx hy

theorem reaches (h : Unfolds s v x rs) {r : Ref} (hr : r ∈ rs) : s.Reaches v r := by
  induction h with
  | nil => cases hr
  | leaf ha => simp only [List.mem_singleton] at hr; subst hr; exact Reaches.refl s _
  | cell _ _ ihx ihy =>
    simp only [List.mem_cons, List.mem_append] at hr
    rcases hr with rfl | hr | hr
    · exact Reaches.refl s _
    · exact (ihx hr).of_car
    · exact (ihy hr).of_cdr

/-- What an object met on the way refers to is met too, and unfolds to a smaller tree. -/
theorem link (h : Unfolds s v x rs) {q r : Ref} (hq : v = some q) (hl : s.Link q r) :
    ∃ (p' : Place) (y : Tree p') (ys : List Ref), Unfolds s (some r) y ys ∧ y.size < x.size ∧ ys ⊆ rs := by
  subst hq
  cases h with
  | leaf ha =>
    cases hl with
    | field hb => rw [ha] at hb; cases hb
  | @cell _ c x y xs ys hx hy =>
    cases hl with
    | car hc =>
      rw [hc] at hx
      exact ⟨_, x, xs, hx, by simp only [Tree.size]; omega, fun z hz => by simp [hz]⟩
    | cdr hc =>
      rw [hc] at hy
      exact ⟨_, y, ys, hy, by simp only [Tree.size]; omega, fun z hz => by simp [hz]⟩

theorem reach (h : Unfolds s v x rs) {r : Ref} (hr : s.Reaches v r) :
    ∃ (p' : Place) (y : Tree p') (ys : List Ref), Unfolds s (some r) y ys ∧ y.size ≤ x.size ∧ ys ⊆ rs := by
  obtain ⟨q, rfl, hqr⟩ := hr
  induction hqr with
  | refl => exact ⟨p, x, rs, h, Nat.le_refl _, List.Subset.refl _⟩
  | tail _ hl ih =>
    obtain ⟨_, y, ys, hy, hsize, hsub⟩ := ih
    obtain ⟨_, z, zs, hz, hlt, hsub'⟩ := hy.link rfl hl
    exact ⟨_, z, zs, hz, by omega, List.Subset.trans hsub' hsub⟩

theorem head_mem {r : Ref} (h : Unfolds s (some r) x rs) : r ∈ rs := by
  cases h <;> simp

/-- The objects met are those that can be reached. -/
theorem mem_iff (h : Unfolds s v x rs) {r : Ref} : r ∈ rs ↔ s.Reaches v r := by
  constructor
  · exact h.reaches
  · intro hr
    obtain ⟨_, _, _, hy, _, hsub⟩ := h.reach hr
    exact hsub hy.head_mem

theorem data (h : Unfolds s v x rs) {a : AtomId} (ha : s.Reaches v (.atom a)) : ∃ d, s.atom a = .datum d := by
  obtain ⟨_, _, _, hy, _, _⟩ := h.reach ha
  cases hy with
  | leaf hd => exact ⟨_, hd⟩

/-- Along a cycle the trees would get smaller for ever. -/
theorem acyclic (h : Unfolds s v x rs) : s.Acyclic v := by
  intro r hr hcycle
  obtain ⟨p', y, ys, hy, -, -⟩ := h.reach hr
  have hdown : ∀ q, Relation.TransGen s.Link r q →
      ∃ (p'' : Place) (z : Tree p'') (zs : List Ref), Unfolds s (some q) z zs ∧ z.size < y.size := by
    intro q hq
    induction hq with
    | single hl =>
      obtain ⟨_, z, zs, hz, hlt, -⟩ := hy.link rfl hl
      exact ⟨_, z, zs, hz, hlt⟩
    | tail _ hl ih =>
      obtain ⟨_, z, zs, hz, hlt⟩ := ih
      obtain ⟨_, z', zs', hz', hlt', -⟩ := hz.link rfl hl
      exact ⟨_, z', zs', hz', by omega⟩
  obtain ⟨_, z, zs, hz, hlt⟩ := hdown r hcycle
  have hsize : z.size = y.size := by
    clear hdown hr hlt
    cases hy with
    | leaf ha => cases hz with | leaf hb => rfl
    | cell hx hy =>
      cases hz with
      | cell hx' hy' =>
        obtain ⟨rfl, -⟩ := hx.unique hx'
        obtain ⟨rfl, -⟩ := hy.unique hy'
        rfl
  omega

theorem extend (h : Unfolds s v x rs) (hv : s.Covers v) (hst : s.Extends t) : Unfolds t v x rs :=
  h.congr fun r hr => (hst r (hv r (h.reaches hr))).2

theorem covers (h : Unfolds s v x rs) (hrs : ∀ r ∈ rs, s.Has r) : s.Covers v :=
  fun r hr => hrs r (h.mem_iff.mpr hr)

end Unfolds

end Store

end ScriptCore
