import Mathlib.Data.Set.Card
import Mathlib.Data.List.Chain
import ScriptCore.Proofs.Heap

/-!
# Lengths of chains

How many cells a chain has and whether it runs into a cycle is found out by Brent's race and a second walk that finds
where the cycle starts. `Found` is that search as it is, two loops without a bound on their rounds; `extent` bounds
both by the size of the store. The search always ends, with what `extent` gives (`found_extent`, `Found.unique`), and
that is the number of different cells of the chain (`extent_exact`).
-/
namespace ScriptCore

namespace Chain

variable {α : Type} {next : α → Option α} {a b : α}

/-! ## The loops -/

/-- The race ends with a finding. Either the hare is at the end of the chain, or it meets the tortoise, or it runs on,
with the tortoise in its place if it has run as far as the next power of two. -/
inductive Raced (next : α → Option α) : Nat → Nat → Nat → α → Option α → Race → Prop
  | ended {power distance visited : Nat} {tortoise : α} :
      Raced next power distance visited tortoise none (.ended visited)
  | met {power distance visited : Nat} {tortoise : α} :
      Raced next power distance visited tortoise (some tortoise) (.looped distance)
  | jump {power visited : Nat} {tortoise hare : α} {finding : Race} (apart : hare ≠ tortoise)
      (more : Raced next (2 * power) 1 (visited + 1) hare (next hare) finding) :
      Raced next power power visited tortoise (some hare) finding
  | run {power distance visited : Nat} {tortoise hare : α} {finding : Race} (apart : hare ≠ tortoise)
      (short : power ≠ distance) (more : Raced next power (distance + 1) (visited + 1) tortoise (next hare) finding) :
      Raced next power distance visited tortoise (some hare) finding

/-- Two points walk on together until they are the same or one of them cannot go on, which takes so many steps. -/
inductive Walked (next : α → Option α) : Nat → α → α → Nat → Prop
  | met {steps : Nat} {a : α} : Walked next steps a a steps
  | stuck {steps : Nat} {a b : α} (apart : a ≠ b) (stop : next a = none ∨ next b = none) : Walked next steps a b steps
  | step {steps found : Nat} {a b a' b' : α} (apart : a ≠ b) (ha : next a = some a') (hb : next b = some b')
      (more : Walked next (steps + 1) a' b' found) : Walked next steps a b found

/-- The search ends with a shape: the race, and if it finds a period, the walk of the first point and one that is a
period ahead. -/
inductive Found (next : α → Option α) (a : α) : Extent → Prop
  | proper {visited : Nat} (race : Raced next 1 1 1 a (next a) (.ended visited)) : Found next a ⟨visited, false⟩
  | cyclic {period lead : Nat} (race : Raced next 1 1 1 a (next a) (.looped period))
      (walk : Walked next 0 a (last next period a) lead) : Found next a ⟨lead + period, true⟩

theorem Raced.unique {power distance visited : Nat} {tortoise : α} {hare : Option α} {finding other : Race}
    (h : Raced next power distance visited tortoise hare finding)
    (k : Raced next power distance visited tortoise hare other) : other = finding := by
  induction h with
  | ended => cases k; rfl
  | met =>
    cases k with
    | met => rfl
    | jump apart => exact absurd rfl apart
    | run apart => exact absurd rfl apart
  | jump apart _ ih =>
    cases k with
    | met => exact absurd rfl apart
    | jump _ more => exact ih more
    | run _ short => exact absurd rfl short
  | run apart short _ ih =>
    cases k with
    | met => exact absurd rfl apart
    | jump => exact absurd rfl short
    | run _ _ more => exact ih more

theorem Walked.unique {steps found other : Nat} (h : Walked next steps a b found) (k : Walked next steps a b other) :
    other = found := by
  induction h with
  | met =>
    cases k with
    | met => rfl
    | stuck apart => exact absurd rfl apart
    | step apart => exact absurd rfl apart
  | stuck apart stop =>
    cases k with
    | met => exact absurd rfl apart
    | stuck => rfl
    | step _ ha hb => rw [ha, hb] at stop; simp at stop
  | step apart ha hb _ ih =>
    cases k with
    | met => exact absurd rfl apart
    | stuck _ stop => rw [ha, hb] at stop; simp at stop
    | step _ ha' hb' more =>
      rw [ha] at ha'
      rw [hb] at hb'
      cases ha'
      cases hb'
      exact ih more

theorem Found.unique {e e' : Extent} (h : Found next a e) (k : Found next a e') : e' = e := by
  cases h with
  | proper race =>
    cases k with
    | proper race' => cases race.unique race'; rfl
    | cyclic race' => cases race.unique race'
  | cyclic race walk =>
    cases k with
    | proper race' => cases race.unique race'
    | cyclic race' walk' =>
      cases race.unique race'
      rw [walk.unique walk']

/-! ## The bounds are not reached -/

variable [DecidableEq α]

/-- A race with a bound is the race without one, unless it has run as far as the bound. -/
theorem raced_race (next : α → Option α) (fuel power distance visited : Nat) (tortoise : α) (hare : Option α) :
    Raced next power distance visited tortoise hare (race next fuel power distance visited tortoise hare) ∨
      race next fuel power distance visited tortoise hare = .ended (visited + fuel) := by
  induction fuel generalizing power distance visited tortoise hare with
  | zero =>
    cases hare with
    | none => exact .inl .ended
    | some hare => exact .inr rfl
  | succ fuel ih =>
    cases hare with
    | none => exact .inl .ended
    | some hare =>
      rw [race, show visited + (fuel + 1) = visited + 1 + fuel by omega]
      by_cases apart : hare = tortoise
      · subst apart
        rw [if_pos rfl]
        exact .inl .met
      rw [if_neg apart]
      by_cases short : power = distance
      · subst short
        rw [if_pos rfl]
        exact (ih _ _ _ _ _).imp_left (.jump apart)
      · rw [if_neg short]
        exact (ih _ _ _ _ _).imp_left (.run apart short)

theorem walked_leadIn (next : α → Option α) (fuel steps : Nat) (a b : α) :
    Walked next steps a b (leadIn next fuel steps a b) ∨ leadIn next fuel steps a b = steps + fuel := by
  induction fuel generalizing steps a b with
  | zero => exact .inr rfl
  | succ fuel ih =>
    rw [leadIn, show steps + (fuel + 1) = steps + 1 + fuel by omega]
    by_cases apart : a = b
    · subst apart
      rw [if_pos rfl]
      exact .inl .met
    rw [if_neg apart]
    cases ha : next a with
    | none => exact .inl (.stuck apart (.inl ha))
    | some a' =>
      cases hb : next b with
      | none => exact .inl (.stuck apart (.inr hb))
      | some b' => exact (ih _ _ _).imp_left (.step apart ha hb)

omit [DecidableEq α] in
theorem last_of_follow {n : Nat} (h : follow next n a = some b) : last next n a = b := by
  induction n generalizing a with
  | zero => cases h; rfl
  | succ n ih =>
    rw [follow] at h
    rw [last]
    cases hn : next a with
    | none => rw [hn] at h; cases h
    | some c => rw [hn] at h; exact ih h

/-- The search for the shape of a chain ends, and with bounds it finds the same. -/
theorem found_extent {size : Nat} (hb : Bounded next size) (a : α) : Found next a (extent size next a) := by
  have hraced := raced_race next (4 * (size + 1)) 1 1 1 a (next a)
  rcases ends_or_loops hb a with ⟨l, hl⟩ | ⟨lead, period, hl⟩
  · have hlen := hl.length_le hb
    have hextent := extent_of_ends hb hl
    rw [extent] at hextent ⊢
    cases hr : race next (4 * (size + 1)) 1 1 1 a (next a) with
    | looped period => simp [hr] at hextent
    | ended visited =>
      have hv : visited = l.length := by simpa [hr] using hextent
      rw [hr, Race.ended.injEq] at hraced
      exact .proper (hraced.resolve_right (by omega))
  · have hsize := hl.le_size hb
    have hextent := extent_of_loops hb hl
    rw [extent] at hextent ⊢
    cases hr : race next (4 * (size + 1)) 1 1 1 a (next a) with
    | ended visited => simp [hr] at hextent
    | looped found =>
      obtain ⟨b, hfollow⟩ := Option.ne_none_iff_exists'.mp (hl.ne_none found)
      have hwalked := walked_leadIn next (size + 1) 0 a b
      have hsum : leadIn next (size + 1) 0 a b + found = lead + period := by simpa [hr, hfollow] using hextent
      rw [hr] at hraced
      simp only [hfollow, Option.getD_some]
      refine .cyclic (hraced.resolve_right (by simp)) ?_
      rw [last_of_follow hfollow]
      exact hwalked.resolve_right (by omega)

/-! ## The points that are met -/

omit [DecidableEq α] in
theorem isChain_walk (n : Nat) (a : α) : (walk next n a).IsChain fun b c => next b = some c := by
  rw [List.isChain_iff_getElem]
  intro i hi
  have hb := List.getElem?_eq_getElem (Nat.lt_of_succ_lt hi)
  have hc := List.getElem?_eq_getElem hi
  have hle := @length_walk_le α next n a
  rw [getElem?_walk, if_pos (by omega)] at hb hc
  rw [follow_succ, hb, Option.bind_some] at hc
  exact hc

omit [DecidableEq α] in
/-- What is linked to from a point, over any number of links, is what is met at some position. -/
theorem reflTransGen_iff : Relation.ReflTransGen (fun b c => next b = some c) a b ↔ ∃ i, follow next i a = some b := by
  constructor
  · intro h
    induction h with
    | refl => exact ⟨0, rfl⟩
    | tail _ hnext ih =>
      obtain ⟨i, hi⟩ := ih
      exact ⟨i + 1, by rw [follow_succ, hi, Option.bind_some, hnext]⟩
  · rintro ⟨i, hi⟩
    induction i generalizing b with
    | zero => cases hi; exact .refl
    | succ i ih =>
      rw [follow_succ] at hi
      obtain ⟨c, hc, hnext⟩ := Option.bind_eq_some_iff.mp hi
      exact .tail (ih hc) hnext

/-- A point of the chain has no successor if and only if the chain ends. -/
theorem extent_cyclic_iff_next {size : Nat} (hb : Bounded next size) :
    (extent size next a).cyclic = true ↔
      ∀ b, Relation.ReflTransGen (fun b c => next b = some c) a b → next b ≠ none := by
  rw [extent_cyclic_iff hb]
  constructor
  · rintro h b hreach hnext
    obtain ⟨i, hi⟩ := reflTransGen_iff.mp hreach
    exact h (ends_of_follow_none (n := i + 1) (by rw [follow_succ, hi, Option.bind_some, hnext]))
  · rintro h ⟨l, hl⟩
    have hnone := hl.follow_eq l.length
    obtain ⟨t, rfl⟩ := hl.head
    rw [List.getElem?_eq_none (Nat.le_refl _), List.length_cons, follow_succ] at hnone
    obtain ⟨b, hb⟩ : ∃ b, follow next t.length a = some b :=
      ⟨_, (hl.follow_eq _).trans (List.getElem?_eq_getElem (by simp))⟩
    rw [hb, Option.bind_some] at hnone
    exact h b (reflTransGen_iff.mpr ⟨_, hb⟩) hnone

end Chain

namespace Store

open Chain

/-! ## Sets of objects -/

theorem ncard_le_of_index {α : Type} (index : α → Nat) (hinj : index.Injective) {size : Nat} {S : Set α}
    (h : ∀ x ∈ S, index x < size) : S.Finite ∧ S.ncard ≤ size := by
  have hmaps : ∀ x ∈ S, index x ∈ (Finset.range size : Set Nat) := fun x hx => by simpa using h x hx
  refine ⟨Set.Finite.of_injOn hmaps hinj.injOn (Finset.finite_toSet _), ?_⟩
  have hle := Set.ncard_le_ncard_of_injOn index hmaps hinj.injOn (Finset.finite_toSet _)
  rwa [Set.ncard_coe_finset, Finset.card_range] at hle

theorem ncard_cells_le {s : Store} {S : Set CellId} (h : ∀ c ∈ S, s.Has (.cell c)) :
    S.Finite ∧ S.ncard ≤ s.cells.size :=
  ncard_le_of_index CellId.index (fun ⟨_⟩ ⟨_⟩ h => congrArg CellId.mk h) h

theorem ncard_atoms_le {s : Store} {S : Set AtomId} (h : ∀ a ∈ S, s.Has (.atom a)) :
    S.Finite ∧ S.ncard ≤ s.atoms.size :=
  ncard_le_of_index AtomId.index (fun ⟨_⟩ ⟨_⟩ h => congrArg AtomId.mk h) h

/-! ## The cells of a chain -/

/-- A cell is the first one or comes behind it, over any number of links. -/
def Behind (s : Store) (c d : CellId) : Prop :=
  Relation.ReflTransGen (fun a b => s.next a = some b) c d

theorem mem_spine_iff {s : Store} {c d : CellId} : d ∈ s.spine c ↔ s.Behind c d :=
  (mem_points_iff s.bounded).trans reflTransGen_iff.symm

theorem ncard_behind (s : Store) (c : CellId) : {d | s.Behind c d}.ncard = (s.extent c).cells := by
  have hset : {d | s.Behind c d} = ((s.spine c).toFinset : Set CellId) := by
    ext d
    rw [Set.mem_ofPred_eq, ← mem_spine_iff, Finset.mem_coe, List.mem_toFinset]
  have hnodup : (s.spine c).Nodup := nodup_points s.bounded c
  rw [hset, Set.ncard_coe_finset, List.toFinset_card_of_nodup hnodup]
  exact length_points s.bounded c

theorem head?_spine (s : Store) (c : CellId) : (s.spine c).head? = some c := by
  have hmem : c ∈ s.spine c := mem_spine_iff.mpr .refl
  rw [spine, points] at hmem ⊢
  cases hn : (Chain.extent s.cells.size s.next c).cells with
  | zero => rw [hn] at hmem; cases hmem
  | succ n => rfl

/-- The search for the shape of a chain ends, with one answer. It counts the different cells of the chain, and the chain
is cyclic exactly when none of them is the last. The elements are the cars of those cells, each once and in the order of
the links. So a chain that ends has as many elements as cells, and one that runs into a cycle has those in front of the
cycle and those of one round. -/
theorem extent_exact (s : Store) (c : CellId) :
    (∀ shape, Found s.next c shape ↔ shape = s.extent c) ∧
    (s.extent c).cells = {d | s.Behind c d}.ncard ∧
    ((s.extent c).cyclic = true ↔ ∀ d, s.Behind c d → s.next d ≠ none) ∧
    (∃ cells : List CellId, s.elements c = cells.map (fun d => (s.cell d).car) ∧ cells.head? = some c ∧
      cells.IsChain (fun a b => s.next a = some b) ∧ cells.Nodup ∧ ∀ d, d ∈ cells ↔ s.Behind c d) ∧
    ((∃ l, Ends s.next c l) ∨ ∃ lead period, Loops s.next c lead period) ∧
    (∀ l, Ends s.next c l →
      s.length c = l.length ∧ s.cyclic c = false ∧ s.elements c = l.map (fun d => (s.cell d).car)) ∧
    (∀ lead period, Loops s.next c lead period →
      s.length c = lead + period ∧ s.cyclic c = true ∧
        s.elements c = (walk s.next (lead + period) c).map (fun d => (s.cell d).car)) := by
  have hfound : Found s.next c (s.extent c) := found_extent s.bounded c
  refine ⟨fun shape => ⟨hfound.unique, fun h => h ▸ hfound⟩, (ncard_behind s c).symm,
    extent_cyclic_iff_next s.bounded, ⟨s.spine c, rfl, head?_spine s c, isChain_walk _ c, nodup_points s.bounded c,
      fun _ => mem_spine_iff⟩, ends_or_loops s.bounded c, ?_, ?_⟩
  · intro l hl
    have hextent : s.extent c = ⟨l.length, false⟩ := extent_of_ends s.bounded hl
    rw [length, cyclic, elements, spine_of_ends hl, hextent]
    exact ⟨rfl, rfl, rfl⟩
  · intro lead period hl
    have hextent : s.extent c = ⟨lead + period, true⟩ := extent_of_loops s.bounded hl
    have hspine : s.spine c = walk s.next (s.extent c).cells c := rfl
    rw [length, cyclic, elements, hspine, hextent]
    exact ⟨rfl, rfl, rfl⟩

/-- Five cells, the last of which leads back to the third: two in front of a cycle of three. -/
theorem extent_exact_lasso :
    let cellBefore (i : Nat) : Cell := { cdr := some ⟨i⟩ }
    let s : Store := { cells := #[cellBefore 1, cellBefore 2, cellBefore 3, cellBefore 4, cellBefore 2] }
    Loops s.next ⟨0⟩ 2 3 ∧ s.length ⟨0⟩ = 5 ∧ s.cyclic ⟨0⟩ = true ∧ {d | s.Behind ⟨0⟩ d}.ncard = 5 := by
  intro cellBefore s
  have hloops : Loops s.next ⟨0⟩ 2 3 := by
    refine ⟨by decide, by decide, by decide, ?_⟩
    have hpairs : ∀ j < 5, ∀ i < j, follow s.next i ⟨0⟩ ≠ follow s.next j ⟨0⟩ := by decide
    exact fun i j hij hj => hpairs j hj i hij
  have hexact := extent_exact s ⟨0⟩
  obtain ⟨hlength, hcyclic, -⟩ := hexact.2.2.2.2.2.2 2 3 hloops
  exact ⟨hloops, hlength, hcyclic, hexact.2.1.symm.trans hlength⟩

end Store

end ScriptCore
