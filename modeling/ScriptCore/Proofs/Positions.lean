import ScriptCore.Proofs.Bisimilarity

/-!
# Equal lists, position by position

A list that runs into a cycle has an element at every position. Comparing looks at each cell once, so it says
something about the positions of the first round only; further positions are visited again as `home` tells. Two
lists that are equal can enter their cycles at different cells, and then they go apart behind the first round
(`equal_loops_apart`).

* `isSome_nthCell_eq`: lists of one shape have elements at the same positions.
* `equal_cells`: equal lists have equal elements in the first round.
* `positionsAgree_of_equal`: when they have equal elements at all positions.
-/
namespace ScriptCore

namespace Chain

variable {α : Type} {next : α → Option α} {a : α} {lead period : Nat}

/-- The position of the first round at which a chain with `lead` points in front of a cycle of `period` points has
the same point as at position `i`. -/
def home (lead period i : Nat) : Nat :=
  if i < lead then i else lead + (i - lead) % period

theorem Loops.follow_home (h : Loops next a lead period) (i : Nat) :
    follow next (home lead period i) a = follow next i a := by
  unfold home
  split
  · rfl
  · next hi => exact (h.behind i (Nat.not_lt.mp hi)).symm

theorem Loops.home_lt (h : Loops next a lead period) (i : Nat) : home lead period i < lead + period := by
  have hpos := h.pos
  have hmod := Nat.mod_lt (i - lead) hpos
  unfold home
  split <;> omega

end Chain

namespace Store

open Chain

variable {s : Store} {v w u : Value} {a b : CellId} {i : Nat}

/-! ## Equality is an equivalence -/

theorem equal_refl (s : Store) (v : Value) : s.equal v v = true := by
  rw [equal, StateT.run, compare_self]

theorem equal_symm (hv : s.Regular v) (hw : s.Regular w) (h : s.equal v w = true) : s.equal w v = true := by
  obtain ⟨R, hR, hvw⟩ := (equal_eq_true_iff hv hw).mp h
  exact (equal_eq_true_iff hw hv).mpr ⟨_, hR.converse, hvw⟩

theorem equal_trans (hv : s.Regular v) (hw : s.Regular w) (hu : s.Regular u) (h : s.equal v w = true)
    (k : s.equal w u = true) : s.equal v u = true := by
  obtain ⟨R, hR, hvw⟩ := (equal_eq_true_iff hv hw).mp h
  obtain ⟨S, hS, hwu⟩ := (equal_eq_true_iff hw hu).mp k
  exact (equal_eq_true_iff hv hu).mpr ⟨_, hR.comp hS, .inl ⟨w, hvw, hwu⟩⟩

/-! ## Positions of one list -/

theorem Regular.nth (h : s.Regular (some (.cell a))) (i : Nat) : s.Regular (s.nth a i) := by
  cases hv : s.nth a i with
  | none => exact regular_none s
  | some r =>
    obtain ⟨c, hc, hr⟩ := Option.bind_eq_some_iff.mp hv
    exact h.of_reaches ((reaches_follow hc).tail (.car hr))

theorem nth_of_nthCell_none (h : s.nthCell a i = none) : s.nth a i = none := by
  rw [nth, h]
  rfl

/-- A list that ends has elements at the positions below its length. -/
theorem nthCell_eq_none_iff (h : s.cyclic a = false) : s.nthCell a i = none ↔ s.length a ≤ i := by
  obtain ⟨l, hl⟩ := exists_ends h
  rw [nthCell, hl.follow_eq, List.getElem?_eq_none_iff, length, extent, extent_of_ends s.bounded hl]

theorem nthCell_ne_none (h : s.cyclic a = true) (i : Nat) : s.nthCell a i ≠ none :=
  (extent_cyclic s a).mp h i

theorem length_of_loops {lead period : Nat} (h : Loops s.next a lead period) : s.length a = lead + period := by
  rw [length, extent, extent_of_loops s.bounded h]

theorem nth_home {lead period : Nat} (h : Loops s.next a lead period) (i : Nat) :
    s.nth a (home lead period i) = s.nth a i := by
  rw [nth, nth, nthCell, nthCell, h.follow_home]

theorem fetch_of_nthCell {c : CellId} (h : s.nthCell a i = some c) : s.fetch a i = .ok (s.nth a i) := by
  rw [fetch, nth, h]
  rfl

theorem fetch_of_nthCell_none (h : s.nthCell a i = none) : s.fetch a i = .error (.indexOutOfRange i (s.length a)) := by
  rw [fetch, h]

/-! ## Positions of two lists -/

/-- Lists of one shape have elements at the same positions. -/
theorem isSome_nthCell_eq (h : s.extent a = s.extent b) (i : Nat) :
    (s.nthCell a i).isSome = (s.nthCell b i).isSome := by
  have hcyclic : s.cyclic a = s.cyclic b := congrArg Extent.cyclic h
  have hlength : s.length a = s.length b := congrArg Extent.cells h
  rw [Bool.eq_iff_iff, Option.isSome_iff_ne_none, Option.isSome_iff_ne_none]
  cases ha : s.cyclic a with
  | true => exact iff_of_true (nthCell_ne_none ha i) (nthCell_ne_none (hcyclic ▸ ha) i)
  | false => rw [Ne, Ne, nthCell_eq_none_iff ha, nthCell_eq_none_iff (hcyclic ▸ ha), hlength]

/-- What equality of two lists says: their shape, and their elements in the first round. -/
theorem equal_cells (ha : s.Regular (some (.cell a))) (hb : s.Regular (some (.cell b)))
    (h : s.equal (some (.cell a)) (some (.cell b)) = true) :
    s.extent a = s.extent b ∧ ∀ i, i < s.length a → s.equal (s.nth a i) (s.nth b i) = true := by
  obtain ⟨R, hR, hab⟩ := (equal_eq_true_iff ha hb).mp h
  cases hR _ _ hab with
  | core hab =>
    cases hab with
    | same => exact ⟨rfl, fun i _ => equal_refl s _⟩
    | cell kind count endless cars =>
      refine ⟨extent_eq_iff.mpr ⟨count, endless⟩, fun i hi => ?_⟩
      rw [length, extent_cells] at hi
      exact (equal_eq_true_iff (ha.nth i) (hb.nth i)).mpr ⟨R, hR, cars i hi⟩

/-- Two outcomes are equal values, or both are failures. -/
def SameOutcome (s : Store) : Except Error Value → Except Error Value → Prop
  | .ok v, .ok w => s.equal v w = true
  | .error _, .error _ => True
  | _, _ => False

/-- The elements of two lists at a position are equal, or neither list has one there. -/
structure AgreeAt (s : Store) (a b : CellId) (i : Nat) : Prop where
  nth : s.equal (s.nth a i) (s.nth b i) = true
  fetch : s.SameOutcome (s.fetch a i) (s.fetch b i)

/-- Two lists have equal elements at all positions. -/
def PositionsAgree (s : Store) (a b : CellId) : Prop :=
  ∀ i, s.AgreeAt a b i

/-- Lists of one shape agree where their elements are equal, since they fail at the same positions. -/
theorem agreeAt_iff (h : s.extent a = s.extent b) : s.AgreeAt a b i ↔ s.equal (s.nth a i) (s.nth b i) = true := by
  refine ⟨AgreeAt.nth, fun he => ⟨he, ?_⟩⟩
  have hsome := isSome_nthCell_eq h i
  cases ha : s.nthCell a i with
  | none =>
    rw [ha, Option.isSome_none, eq_comm, Option.isSome_eq_false_iff, Option.isNone_iff_eq_none] at hsome
    rw [fetch_of_nthCell_none ha, fetch_of_nthCell_none hsome]
    trivial
  | some c =>
    rw [ha, Option.isSome_some, eq_comm, Option.isSome_iff_exists] at hsome
    obtain ⟨d, hd⟩ := hsome
    rw [fetch_of_nthCell ha, fetch_of_nthCell hd]
    exact he

/-- On cyclic lists the elements at a position are equal if and only if the first list has equal elements at the
two positions of the first round that the lists visit there. -/
theorem equal_nth_iff_home {μ π ν ρ : Nat} (ha : s.Regular (some (.cell a))) (hb : s.Regular (some (.cell b)))
    (h : s.equal (some (.cell a)) (some (.cell b)) = true) (hla : Loops s.next a μ π) (hlb : Loops s.next b ν ρ)
    (i : Nat) :
    s.equal (s.nth a i) (s.nth b i) = true ↔ s.equal (s.nth a (home μ π i)) (s.nth a (home ν ρ i)) = true := by
  obtain ⟨hextent, hfirst⟩ := equal_cells ha hb h
  have hlength : s.length a = s.length b := congrArg Extent.cells hextent
  have hlt : home ν ρ i < s.length a := by
    rw [hlength, length_of_loops hlb]
    exact hlb.home_lt i
  have hsame := hfirst _ hlt
  rw [nth_home hlb] at hsame
  rw [nth_home hla]
  constructor
  · intro he
    exact equal_trans (ha.nth _) (hb.nth _) (ha.nth _) he (equal_symm (ha.nth _) (hb.nth _) hsame)
  · intro he
    exact equal_trans (ha.nth _) (ha.nth _) (hb.nth _) he hsame

/-- Equal lists have elements at the same positions, and equal ones in the first round. If the lists end, their
elements are equal everywhere. If they do not, they are equal everywhere if and only if the first list has equal
elements wherever the two lists are at the same time; that is so when they enter their cycles at the same position. -/
theorem positionsAgree_of_equal (ha : s.Regular (some (.cell a))) (hb : s.Regular (some (.cell b)))
    (h : s.equal (some (.cell a)) (some (.cell b)) = true) :
    (∀ i, (s.nthCell a i).isSome = (s.nthCell b i).isSome) ∧ (∀ i, i < s.length a → s.AgreeAt a b i) ∧
    (s.cyclic a = false → s.PositionsAgree a b) ∧
    ∀ μ π ν ρ, Loops s.next a μ π → Loops s.next b ν ρ →
      (s.PositionsAgree a b ↔ ∀ i, s.equal (s.nth a (home μ π i)) (s.nth a (home ν ρ i)) = true) ∧
      (μ = ν → s.PositionsAgree a b) := by
  obtain ⟨hextent, hfirst⟩ := equal_cells ha hb h
  have hcyclic : s.cyclic a = s.cyclic b := congrArg Extent.cyclic hextent
  have hlength : s.length a = s.length b := congrArg Extent.cells hextent
  refine ⟨isSome_nthCell_eq hextent, fun i hi => (agreeAt_iff hextent).mpr (hfirst i hi), ?_, ?_⟩
  · intro hproper i
    refine (agreeAt_iff hextent).mpr ?_
    by_cases hi : i < s.length a
    · exact hfirst i hi
    · have hna : s.nthCell a i = none := (nthCell_eq_none_iff hproper).mpr (Nat.not_lt.mp hi)
      have hnb : s.nthCell b i = none := (nthCell_eq_none_iff (hcyclic ▸ hproper)).mpr (hlength ▸ Nat.not_lt.mp hi)
      rw [nth_of_nthCell_none hna, nth_of_nthCell_none hnb]
      exact equal_refl s none
  · intro μ π ν ρ hla hlb
    have hiff : s.PositionsAgree a b ↔ ∀ i, s.equal (s.nth a (home μ π i)) (s.nth a (home ν ρ i)) = true :=
      forall_congr' fun i => (agreeAt_iff hextent).trans (equal_nth_iff_home ha hb h hla hlb i)
    refine ⟨hiff, fun hμν => hiff.mpr fun i => ?_⟩
    -- with one lead and one number of cells the periods are the same
    have hπρ : π = ρ := by
      rw [length_of_loops hla, length_of_loops hlb] at hlength
      omega
    rw [hμν, hπρ]
    exact equal_refl s _

/-- Three lists that begin with 1 and 2 and do not end. The first and the last go on with 2 for ever, the one in the
middle goes back to 1. -/
def loopingLists : Store where
  cells := #[
    { car := some (.atom ⟨0⟩), cdr := some ⟨1⟩ }, { car := some (.atom ⟨1⟩), cdr := some ⟨1⟩ },
    { car := some (.atom ⟨2⟩), cdr := some ⟨3⟩ }, { car := some (.atom ⟨3⟩), cdr := some ⟨2⟩ },
    { car := some (.atom ⟨0⟩), cdr := some ⟨5⟩ }, { car := some (.atom ⟨3⟩), cdr := some ⟨5⟩ }]
  atoms := #[.datum (.integer 1), .datum (.integer 2), .datum (.integer 1), .datum (.integer 2)]

theorem regular_loopingLists {c : CellId} (hc : loopingLists.Has (.cell c)) :
    loopingLists.Regular (some (.cell c)) := by
  have hlink : ∀ q r, loopingLists.Link q r → loopingLists.Has r := by
    intro q r hl
    cases hl with
    | @car c _ h =>
      rcases c with ⟨_ | _ | _ | _ | _ | _ | i⟩ <;> simp [loopingLists, Store.cell] at h <;> subst h <;> decide
    | @cdr c _ h =>
      rcases c with ⟨_ | _ | _ | _ | _ | _ | i⟩ <;> simp [loopingLists, Store.cell] at h <;> subst h <;> decide
    | @field a g _ ha => rcases a with ⟨_ | _ | _ | _ | i⟩ <;> simp [loopingLists, Store.atom] at ha
  have hplain : loopingLists.Plain (some (.cell c)) := by
    intro a o _ ho
    rcases a with ⟨_ | _ | _ | _ | i⟩ <;> simp [loopingLists, Store.atom] at ho
  exact hplain.regular fun r hr => hr.induction (by rintro _ ⟨⟩; exact hc) fun q r _ => hlink q r

theorem loops_of_two_cells {c : CellId} (h : loopingLists.nthCell c 2 = loopingLists.nthCell c 1)
    (hne : loopingLists.nthCell c 0 ≠ loopingLists.nthCell c 1) (hsome : loopingLists.nthCell c 1 ≠ none) :
    Loops loopingLists.next c 1 1 := by
  refine ⟨Nat.one_pos, h, fun i hi => ?_, fun i j hij hj => ?_⟩
  · obtain rfl | rfl : i = 0 ∨ i = 1 := by omega
    · exact Option.some_ne_none c
    · exact hsome
  · obtain ⟨rfl, rfl⟩ : i = 0 ∧ j = 1 := by omega
    exact hne

/-- The first and the last list are equal, enter their cycles at the same position, and agree at all positions. -/
theorem positionsAgree_loopingLists :
    loopingLists.equal (some (.cell ⟨0⟩)) (some (.cell ⟨4⟩)) = true ∧ loopingLists.cyclic ⟨0⟩ = true ∧
    loopingLists.PositionsAgree ⟨0⟩ ⟨4⟩ := by
  have hequal : loopingLists.equal (some (.cell ⟨0⟩)) (some (.cell ⟨4⟩)) = true := by decide +kernel
  have hfirst := loops_of_two_cells (c := ⟨0⟩) rfl (by decide) (by decide)
  have hlast := loops_of_two_cells (c := ⟨4⟩) rfl (by decide) (by decide)
  have hagree := positionsAgree_of_equal (regular_loopingLists (c := ⟨0⟩) (by decide))
    (regular_loopingLists (c := ⟨4⟩) (by decide)) hequal
  exact ⟨hequal, by decide, (hagree.2.2.2 _ _ _ _ hfirst hlast).2 rfl⟩

/-- The first list and the one in the middle are equal too, but behind the first round they have different elements. -/
theorem equal_loops_apart :
    loopingLists.Regular (some (.cell ⟨0⟩)) ∧ loopingLists.Regular (some (.cell ⟨2⟩)) ∧
    loopingLists.equal (some (.cell ⟨0⟩)) (some (.cell ⟨2⟩)) = true ∧
    loopingLists.equal (loopingLists.nth ⟨0⟩ 2) (loopingLists.nth ⟨2⟩ 2) = false ∧
    ¬ loopingLists.PositionsAgree ⟨0⟩ ⟨2⟩ := by
  have hapart : loopingLists.equal (loopingLists.nth ⟨0⟩ 2) (loopingLists.nth ⟨2⟩ 2) = false := by decide +kernel
  refine ⟨regular_loopingLists (by decide), regular_loopingLists (by decide), by decide +kernel, hapart, fun h => ?_⟩
  have hsame := (h 2).nth
  rw [hapart] at hsame
  cases hsame

end Store

end ScriptCore
