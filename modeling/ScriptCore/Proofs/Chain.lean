import Mathlib.Data.List.Nodup
import Mathlib.Data.List.Perm.Subperm
import Mathlib.Data.Nat.Find
import ScriptCore.Chain

/-!
# What the race along a chain finds out

A chain either ends (`Ends`) or runs into a cycle (`Loops`), as long as only finitely many points have a
successor (`Bounded`). `extent` tells which, and counts the different points.

Positions along the chain are numbers: `follow next i a` is point `i`. In a chain that loops with `lead`
points in front of a cycle of `period` points, two positions hold the same point exactly when both are behind
the lead and differ by a multiple of the period (`Loops.repeats`). While Brent's race goes on, the tortoise
stands at position `power - 1` and the hare at `power - 1 + distance`.

Results:
* `ends_or_loops`: one of the two shapes, for every chain.
* `extent_of_ends`, `extent_of_loops`: `extent` is exact on both.
* `mem_points_iff`, `nodup_points`, `length_points`: the different points are found, each once.
* `extent_decided`: the bound on the race is never reached, since a larger one gives the same answer.
* `extent_congr`, `points_congr`: only the links along the chain count.
* `last_of_ends`, `Ends.snoc`: the last point of a chain that ends, and a point that is linked behind it.
-/
namespace ScriptCore.Chain

variable {α : Type} {next : α → Option α} {a b : α}

/-- The chain from a point runs through the points of a list and ends behind the last of them. -/
inductive Ends (next : α → Option α) : α → List α → Prop
  | last {a : α} (h : next a = none) : Ends next a [a]
  | cons {a b : α} {l : List α} (h : next a = some b) (t : Ends next b l) : Ends next a (a :: l)

/-- The same behind a link, which may lead nowhere. -/
def EndsBehind (next : α → Option α) : Option α → List α → Prop
  | none, l => l = []
  | some a, l => Ends next a l

/-- The chain from `a` has `lead` points in front of a cycle of `period` points. -/
structure Loops (next : α → Option α) (a : α) (lead period : Nat) : Prop where
  pos : 0 < period
  closes : follow next (lead + period) a = follow next lead a
  here : ∀ i, i < lead + period → follow next i a ≠ none
  apart : ∀ i j, i < j → j < lead + period → follow next i a ≠ follow next j a

/-- At most `size` points have a successor. -/
def Bounded (next : α → Option α) (size : Nat) : Prop :=
  ∃ dom : List α, dom.length ≤ size ∧ ∀ b, next b ≠ none → b ∈ dom

/-! ## Positions -/

theorem follow_add (i j : Nat) (a : α) :
    follow next (i + j) a = (follow next i a).bind (follow next j) := by
  induction i generalizing a with
  | zero => simp [follow]
  | succ i ih =>
    rw [show i + 1 + j = i + j + 1 by omega]
    simp only [follow]
    cases next a with
    | none => rfl
    | some b => exact ih b

theorem follow_succ (i : Nat) (a : α) : follow next (i + 1) a = (follow next i a).bind next := by
  rw [follow_add]
  congr; funext b
  simp only [follow]
  cases next b <;> rfl

theorem follow_shift {i j : Nat} (h : follow next i a = follow next j a) (k : Nat) :
    follow next (i + k) a = follow next (j + k) a := by
  rw [follow_add, follow_add, h]

theorem getElem?_walk (n i : Nat) (a : α) :
    (walk next n a)[i]? = if i < n then follow next i a else none := by
  induction n generalizing i a with
  | zero => simp [walk]
  | succ n ih =>
    cases i with
    | zero => simp [walk, follow]
    | succ i =>
      simp only [walk, follow, List.getElem?_cons_succ]
      cases next a with
      | none => simp
      | some b => simp [ih]

theorem length_walk_le (n : Nat) (a : α) : (walk next n a).length ≤ n := by
  have hn := @getElem?_walk α next n n a
  rwa [if_neg (Nat.lt_irrefl _), List.getElem?_eq_none_iff] at hn

theorem length_walk {n : Nat} (h : ∀ i, i < n → follow next i a ≠ none) : (walk next n a).length = n := by
  apply Nat.le_antisymm (length_walk_le n a)
  by_contra hc
  have hn := @getElem?_walk α next n (walk next n a).length a
  rw [if_pos (by omega), List.getElem?_eq_none (Nat.le_refl _)] at hn
  exact h _ (by omega) hn.symm

theorem nodup_walk {n : Nat} (h : ∀ i j, i < j → j < n → follow next i a ≠ follow next j a) :
    (walk next n a).Nodup := by
  rw [List.nodup_iff_getElem?_ne_getElem?]
  intro i j hij hj
  have hl := @length_walk_le α next n a
  rw [getElem?_walk, getElem?_walk, if_pos (by omega), if_pos (by omega)]
  exact h i j hij (by omega)

/-- Different points that all have a successor are no more than the bound allows. -/
theorem le_of_apart {size n : Nat} (hb : Bounded next size) (hn : ∀ i, i ≤ n → follow next i a ≠ none)
    (h : ∀ i j, i < j → j < n → follow next i a ≠ follow next j a) : n ≤ size := by
  obtain ⟨dom, hlen, hdom⟩ := hb
  have hsub : walk next n a ⊆ dom := by
    intro x hx
    obtain ⟨i, hi⟩ := List.getElem?_of_mem hx
    rw [getElem?_walk] at hi
    split at hi
    · next hin =>
      have hs := hn (i + 1) (by omega)
      rw [follow_succ, hi] at hs
      exact hdom x hs
    · cases hi
  have hle := ((nodup_walk h).subperm hsub).length_le
  rw [length_walk fun i hi => hn i (by omega)] at hle
  omega

/-! ## The two shapes -/

theorem ends_cons_iff {l : List α} : Ends next a (b :: l) ↔ b = a ∧ EndsBehind next (next a) l := by
  constructor
  · intro h
    cases h with
    | last h => exact ⟨rfl, by rw [h]; rfl⟩
    | cons h t => exact ⟨rfl, by rw [h]; exact t⟩
  · rintro ⟨rfl, h⟩
    cases hn : next b with
    | none => rw [hn] at h; cases h; exact .last hn
    | some c => rw [hn] at h; exact .cons hn h

theorem Ends.walk_eq {l : List α} (h : Ends next a l) : walk next l.length a = l := by
  induction h with
  | last h => simp [walk, h]
  | cons h _ ih => simp [walk, h, ih]

theorem Ends.head {l : List α} (h : Ends next a l) : ∃ t, l = a :: t := by
  cases h with
  | last => exact ⟨[], rfl⟩
  | cons => exact ⟨_, rfl⟩

theorem Ends.follow_eq {l : List α} (h : Ends next a l) (i : Nat) : follow next i a = l[i]? := by
  induction h generalizing i with
  | last h => cases i <;> simp [follow, h]
  | cons h _ ih =>
    cases i with
    | zero => simp [follow]
    | succ i => simp [follow, h, ih]

/-- Two equal positions would make the chain go on for ever. -/
theorem Ends.apart {l : List α} (h : Ends next a l) {i j : Nat} (hij : i < j) (hj : j < l.length) :
    follow next i a ≠ follow next j a := by
  intro he
  have hs := follow_shift he (l.length - j)
  rw [h.follow_eq, h.follow_eq, show j + (l.length - j) = l.length by omega,
    List.getElem?_eq_none (Nat.le_refl _), List.getElem?_eq_none_iff] at hs
  omega

theorem Ends.nodup {l : List α} (h : Ends next a l) : l.Nodup := by
  rw [List.nodup_iff_getElem?_ne_getElem?]
  intro i j hij hj
  rw [← h.follow_eq, ← h.follow_eq]
  exact h.apart hij hj

theorem Ends.unique {l m : List α} (h : Ends next a l) (k : Ends next a m) : l = m :=
  List.ext_getElem? fun i => by rw [← h.follow_eq, ← k.follow_eq]

theorem ends_of_follow_none {n : Nat} (h : follow next n a = none) : ∃ l, Ends next a l := by
  induction n generalizing a with
  | zero => simp [follow] at h
  | succ n ih =>
    simp only [follow] at h
    cases hn : next a with
    | none => exact ⟨[a], .last hn⟩
    | some b =>
      rw [hn] at h
      obtain ⟨l, hl⟩ := ih h
      exact ⟨a :: l, .cons hn hl⟩

namespace Loops

variable {lead period : Nat}

theorem behind (h : Loops next a lead period) (i : Nat) (hi : lead ≤ i) :
    follow next i a = follow next (lead + (i - lead) % period) a := by
  induction i using Nat.strongRecOn with
  | ind i ih =>
    by_cases hp : i - lead < period
    · rw [Nat.mod_eq_of_lt hp, show lead + (i - lead) = i by omega]
    · have hs := follow_shift h.closes (i - (lead + period))
      rw [show lead + period + (i - (lead + period)) = i by omega] at hs
      rw [hs, ih _ (by have := h.pos; omega) (by omega), show i - lead = i - period - lead + period by omega,
        Nat.add_mod_right]
      congr 3; omega

theorem ne_none (h : Loops next a lead period) (i : Nat) : follow next i a ≠ none := by
  by_cases hi : i < lead + period
  · exact h.here i hi
  · rw [h.behind i (by omega)]
    exact h.here _ (by have := Nat.mod_lt (i - lead) h.pos; omega)

/-- The same point at two positions: both lie behind the lead, a multiple of the period apart. -/
theorem repeats (h : Loops next a lead period) {i d : Nat} (hd : 0 < d) :
    follow next i a = follow next (i + d) a ↔ lead ≤ i ∧ period ∣ d := by
  constructor
  · intro he
    have hjl := Nat.mod_lt (i + d - lead) h.pos
    by_cases hi : lead ≤ i
    · refine ⟨hi, ?_⟩
      have hil := Nat.mod_lt (i - lead) h.pos
      rw [h.behind i hi, h.behind (i + d) (by omega)] at he
      have hm : (i - lead) % period = (i + d - lead) % period := by
        rcases Nat.lt_trichotomy ((i - lead) % period) ((i + d - lead) % period) with hlt | heq | hgt
        · exact absurd he (h.apart _ _ (by omega) (by omega))
        · exact heq
        · exact absurd he.symm (h.apart _ _ (by omega) (by omega))
      rw [show i + d - lead = i - lead + d by omega] at hm
      have hs := Nat.sub_mod_eq_zero_of_mod_eq hm.symm
      rw [Nat.add_sub_cancel_left] at hs
      exact Nat.dvd_of_mod_eq_zero hs
    · by_cases hj : i + d < lead + period
      · exact absurd he (h.apart _ _ (by omega) hj)
      · rw [h.behind (i + d) (by omega)] at he
        exact absurd he (h.apart _ _ (by omega) (by omega))
  · rintro ⟨hi, k, rfl⟩
    rw [h.behind i hi, h.behind (i + period * k) (by omega),
      show i + period * k - lead = i - lead + period * k by omega, Nat.add_mul_mod_self_left]

theorem nodup (h : Loops next a lead period) : (walk next (lead + period) a).Nodup :=
  nodup_walk h.apart

/-- Every point of the chain has a successor, so there are no more of them than of those. -/
theorem le_size {size : Nat} (h : Loops next a lead period) (hb : Bounded next size) :
    lead + period ≤ size :=
  le_of_apart hb (fun i _ => h.ne_none i) h.apart

end Loops

theorem Ends.length_le {size : Nat} {l : List α} (h : Ends next a l) (hb : Bounded next size) :
    l.length ≤ size + 1 := by
  obtain ⟨dom, hlen, hdom⟩ := hb
  have hsub : l.dropLast ⊆ dom := by
    clear hlen
    induction h with
    | last h => simp
    | @cons a b l h t ih =>
      obtain ⟨m, rfl⟩ := t.head
      intro x hx
      rw [List.dropLast_cons_cons, List.mem_cons] at hx
      rcases hx with rfl | hx
      · exact hdom _ (by simp [h])
      · exact ih hx
  have hle := ((h.nodup.sublist (List.dropLast_sublist l)).subperm hsub).length_le
  rw [List.length_dropLast] at hle
  omega

/-- A chain ends or runs into a cycle. -/
theorem ends_or_loops {size : Nat} (hb : Bounded next size) (a : α) :
    (∃ l, Ends next a l) ∨ ∃ lead period, Loops next a lead period := by
  by_cases hn : ∃ n, follow next n a = none
  · obtain ⟨n, hn⟩ := hn
    exact .inl (ends_of_follow_none hn)
  · right
    have hsome : ∀ n, follow next n a ≠ none := fun n h => hn ⟨n, h⟩
    have hrep : ∃ j i, i < j ∧ follow next i a = follow next j a := by
      by_contra hno
      -- without a repetition the points `0 .. size` are different, and all have a successor
      have := le_of_apart hb (n := size + 1) (fun i _ => hsome i) fun i j hij _ he => hno ⟨j, i, hij, he⟩
      omega
    classical
    obtain ⟨i, hij, he⟩ := Nat.find_spec hrep
    generalize hj : Nat.find hrep = j at hij he
    refine ⟨i, j - i, by omega, ?_, fun k _ => hsome k, ?_⟩
    · rw [show i + (j - i) = j by omega, he]
    · intro k m hkm hm hkeq
      exact Nat.find_min hrep (by omega : m < Nat.find hrep) ⟨k, hkm, hkeq⟩

/-! ## The points of a chain that ends -/

variable {next' : α → Option α} {l : List α}

/-- A chain depends on the successors of its points only. -/
theorem Ends.congr (h : Ends next a l) (hn : ∀ b ∈ l, next' b = next b) : Ends next' a l := by
  induction h with
  | last h => exact .last ((hn _ (by simp)).trans h)
  | cons h _ ih => exact .cons ((hn _ (by simp)).trans h) (ih fun b hb => hn b (by simp [hb]))

theorem EndsBehind.congr {link : Option α} (h : EndsBehind next link l) (hn : ∀ b ∈ l, next' b = next b) :
    EndsBehind next' link l := by
  cases link with
  | none => exact h
  | some a => exact Ends.congr h hn

theorem Ends.next_mem (h : Ends next a l) (hb : b ∈ l) {c : α} (hc : next b = some c) : c ∈ l := by
  induction h with
  | last h =>
    rw [List.mem_singleton.mp hb, h] at hc
    cases hc
  | cons h t ih =>
    rcases List.mem_cons.mp hb with rfl | hb
    · rw [h] at hc
      cases hc
      obtain ⟨rest, rfl⟩ := t.head
      simp
    · exact List.mem_cons_of_mem _ (ih hb)

/-- The last of some points lies where they all lie. -/
theorem last_mem (hl : ∀ b ∈ l, ∀ c, next b = some c → c ∈ l) (n : Nat) (ha : a ∈ l) : last next n a ∈ l := by
  induction n generalizing a with
  | zero => exact ha
  | succ n ih =>
    rw [last]
    cases hn : next a with
    | none => exact ha
    | some b => exact ih (hl a ha b hn)

/-- With as many steps as there are further points, the last one is found. -/
theorem last_of_ends (h : Ends next a l) {n : Nat} (hn : l.length ≤ n + 1) :
    last next n a ∈ l ∧ next (last next n a) = none := by
  induction h generalizing n with
  | last h => cases n <;> simp [last, h]
  | cons h t ih =>
    obtain ⟨rest, rfl⟩ := t.head
    cases n with
    | zero => simp at hn
    | succ n =>
      rw [last, h]
      have hlast := ih (by simpa using hn)
      exact ⟨List.mem_cons_of_mem _ hlast.1, hlast.2⟩

/-- A chain goes on with a point that is linked behind the last one. -/
theorem Ends.snoc {c : α} (h : Ends next a l) (hb : b ∈ l) (hnone : next b = none) (hlink : next' b = some c)
    (hc : next' c = none) (hkept : ∀ d ∈ l, d ≠ b → next' d = next d) : Ends next' a (l ++ [c]) := by
  induction h with
  | last h =>
    rw [List.mem_singleton.mp hb] at hlink
    exact .cons hlink (.last hc)
  | @cons a a' l h t ih =>
    have hne : a ≠ b := by
      intro e
      rw [e, hnone] at h
      cases h
    refine .cons ((hkept a (by simp) hne).trans h) (ih ?_ fun d hd => hkept d (by simp [hd]))
    exact (List.mem_cons.mp hb).resolve_left hne.symm

/-! ## Brent's race -/

variable [DecidableEq α]

theorem race_ended {l : List α} (h : Ends next a l) (fuel power distance visited : Nat) (tortoise : α)
    (ht : ∃ i, i < visited ∧ follow next i a = some tortoise) (hv : visited ≤ l.length)
    (hf : l.length ≤ fuel + visited) :
    race next fuel power distance visited tortoise (follow next visited a) = .ended l.length := by
  induction fuel generalizing power distance visited tortoise with
  | zero =>
    have hl : visited = l.length := by omega
    subst hl
    rw [h.follow_eq, List.getElem?_eq_none (Nat.le_refl _), race]
  | succ fuel ih =>
    cases hh : follow next visited a with
    | none =>
      rw [h.follow_eq, List.getElem?_eq_none_iff] at hh
      rw [race, show visited = l.length by omega]
    | some hare =>
      have hlt : visited < l.length := by
        rw [h.follow_eq] at hh
        exact (List.getElem?_eq_some_iff.mp hh).1
      obtain ⟨i, hi, hti⟩ := ht
      have hne : hare ≠ tortoise := by
        rintro rfl
        exact h.apart hi hlt (by rw [hti, hh])
      have hnext : next hare = follow next (visited + 1) a := by rw [follow_succ, hh]; rfl
      rw [race, if_neg hne, hnext]
      split
      · exact ih _ _ _ _ ⟨visited, by omega, hh⟩ (by omega) (by omega)
      · exact ih _ _ _ _ ⟨i, by omega, hti⟩ (by omega) (by omega)

/-- The invariant of the race on a chain that loops: once the tortoise stands on the cycle, the hare is not
more than a period ahead. Then the positions stay below three times the bound. -/
theorem race_looped {lead period : Nat} (h : Loops next a lead period) (size fuel power distance : Nat)
    (tortoise : α) (ht : follow next (power - 1) a = some tortoise) (hd : 0 < distance)
    (hdp : distance ≤ power) (hlap : lead ≤ power - 1 → distance ≤ period) (hsize : lead + period ≤ size)
    (hp : power ≤ 2 * (size + 1)) (hf : 3 * (size + 1) ≤ fuel + (power - 1 + distance)) :
    race next fuel power distance (power - 1 + distance) tortoise
      (follow next (power - 1 + distance) a) = .looped period := by
  induction fuel generalizing power distance tortoise with
  | zero =>
    by_cases hl : lead ≤ power - 1
    · have := hlap hl; omega
    · omega
  | succ fuel ih =>
    cases hh : follow next (power - 1 + distance) a with
    | none => exact absurd hh (h.ne_none _)
    | some hare =>
      have hmeet : hare = tortoise ↔ lead ≤ power - 1 ∧ period ∣ distance := by
        rw [← h.repeats hd, ht, hh, Option.some.injEq, eq_comm]
      rw [race]
      by_cases he : hare = tortoise
      · obtain ⟨hl, hdvd⟩ := hmeet.mp he
        rw [if_pos he, Nat.le_antisymm (hlap hl) (Nat.le_of_dvd hd hdvd)]
      · have hshort : lead ≤ power - 1 → distance < period := by
          intro hl
          rcases Nat.lt_or_eq_of_le (hlap hl) with hlt | heq
          · exact hlt
          · exact absurd (hmeet.mpr ⟨hl, heq ▸ Nat.dvd_refl _⟩) he
        have hnext : next hare = follow next (power - 1 + distance + 1) a := by rw [follow_succ, hh]; rfl
        rw [if_neg he, hnext]
        split
        · next hpd =>
          -- the tortoise jumps to the hare, from position `power - 1` to `2 * power - 1`
          subst hpd
          have hsmall : power ≤ size + 1 := by
            by_cases hl : lead ≤ power - 1
            · have := hshort hl; omega
            · omega
          have hj := ih (2 * power) 1 hare (by rw [← hh]; congr 1; omega) (by omega) (by omega)
            (fun _ => h.pos) (by omega) (by omega)
          rw [show 2 * power - 1 + 1 = power - 1 + power + 1 by omega] at hj
          exact hj
        · have hj := ih power (distance + 1) tortoise ht (by omega) (by omega)
            (fun hl => hshort hl) hp (by omega)
          rw [← Nat.add_assoc] at hj
          exact hj

theorem leadIn_eq {lead period : Nat} (h : Loops next a lead period) (fuel k : Nat) (x y : α)
    (hx : follow next k a = some x) (hy : follow next (k + period) a = some y) (hk : k ≤ lead)
    (hf : lead ≤ fuel + k) : leadIn next fuel k x y = lead := by
  induction fuel generalizing k x y with
  | zero => rw [leadIn]; omega
  | succ fuel ih =>
    have hmeet : x = y ↔ lead ≤ k ∧ period ∣ period := by
      rw [← h.repeats h.pos, hx, hy, Option.some.injEq]
    rw [leadIn]
    by_cases he : x = y
    · rw [if_pos he]; have := (hmeet.mp he).1; omega
    · have hlt : k < lead := by
        by_contra hc
        exact he (hmeet.mpr ⟨by omega, Nat.dvd_refl _⟩)
      have hx' : follow next (k + 1) a = next x := by rw [follow_succ, hx]; rfl
      have hy' : follow next (k + 1 + period) a = next y := by
        rw [show k + 1 + period = k + period + 1 by omega, follow_succ, hy]; rfl
      rw [if_neg he]
      cases hnx : next x with
      | none => exact absurd (hx'.trans hnx) (h.ne_none _)
      | some x' =>
        cases hny : next y with
        | none => exact absurd (hy'.trans hny) (h.ne_none _)
        | some y' => exact ih (k + 1) x' y' (hx'.trans hnx) (hy'.trans hny) (by omega) (by omega)

/-! ## `extent` is exact -/

theorem extent_of_ends {size : Nat} {l : List α} (hb : Bounded next size) (h : Ends next a l) :
    extent size next a = ⟨l.length, false⟩ := by
  have hlen := h.length_le hb
  have hpos : 1 ≤ l.length := by obtain ⟨t, rfl⟩ := h.head; simp
  have hr := race_ended h (4 * (size + 1)) 1 1 1 a ⟨0, by omega, rfl⟩ hpos (by omega)
  rw [follow_succ] at hr
  simp only [follow, Option.bind_some] at hr
  rw [extent, hr]

theorem extent_of_loops {size lead period : Nat} (hb : Bounded next size) (h : Loops next a lead period) :
    extent size next a = ⟨lead + period, true⟩ := by
  have hsize := h.le_size hb
  have hr := race_looped h size (4 * (size + 1)) 1 1 a rfl (by omega) (by omega) (fun _ => h.pos) hsize
    (by omega) (by omega)
  rw [show 1 - 1 + 1 = 0 + 1 by omega, follow_succ] at hr
  simp only [follow, Option.bind_some, Nat.zero_add] at hr
  obtain ⟨b, hb'⟩ := Option.ne_none_iff_exists'.mp (h.ne_none period)
  have hl := leadIn_eq h (size + 1) 0 a b rfl (by rw [Nat.zero_add, hb']) (by omega) (by omega)
  rw [extent, hr]
  simp only [hb', Option.getD_some, hl]

/-- The bounds in `extent` are never what ends it: with larger ones it finds the same. -/
theorem extent_decided {size bound : Nat} (hb : Bounded next size) (h : size ≤ bound) (a : α) :
    extent bound next a = extent size next a := by
  have hb' : Bounded next bound := by
    obtain ⟨dom, hlen, hdom⟩ := hb
    exact ⟨dom, Nat.le_trans hlen h, hdom⟩
  rcases ends_or_loops hb a with ⟨l, hl⟩ | ⟨lead, period, hl⟩
  · rw [extent_of_ends hb hl, extent_of_ends hb' hl]
  · rw [extent_of_loops hb hl, extent_of_loops hb' hl]

theorem mem_points {size : Nat} {a b : α} (h : b ∈ points size next a) : ∃ i, follow next i a = some b := by
  obtain ⟨i, hi⟩ := List.mem_iff_getElem?.mp h
  rw [points, getElem?_walk] at hi
  split at hi
  · exact ⟨i, hi⟩
  · cases hi

theorem points_of_ends {size : Nat} {l : List α} (hb : Bounded next size) (h : Ends next a l) :
    points size next a = l := by
  rw [points, extent_of_ends hb h, h.walk_eq]

/-- The different points are all points there are. -/
theorem mem_points_iff {size : Nat} (hb : Bounded next size) :
    b ∈ points size next a ↔ ∃ i, follow next i a = some b := by
  refine ⟨mem_points, ?_⟩
  rintro ⟨i, hi⟩
  rcases ends_or_loops hb a with ⟨l, hl⟩ | ⟨lead, period, hl⟩
  · rw [points_of_ends hb hl]
    exact List.mem_of_getElem? (hl.follow_eq i ▸ hi)
  · obtain ⟨j, hj, hji⟩ : ∃ j, j < lead + period ∧ follow next j a = some b := by
      by_cases hlead : lead ≤ i
      · exact ⟨_, Nat.add_lt_add_left (Nat.mod_lt _ hl.pos) lead, (hl.behind i hlead).symm.trans hi⟩
      · exact ⟨i, by omega, hi⟩
    refine List.mem_of_getElem? (i := j) ?_
    rw [points, extent_of_loops hb hl, getElem?_walk, if_pos hj, hji]

theorem follow_of_lt {size i : Nat} (hb : Bounded next size) (hi : i < (extent size next a).cells) :
    ∃ b, follow next i a = some b := by
  rcases ends_or_loops hb a with ⟨l, hl⟩ | ⟨lead, period, hl⟩
  · rw [extent_of_ends hb hl] at hi
    exact ⟨_, (hl.follow_eq i).trans (List.getElem?_eq_getElem hi)⟩
  · exact Option.ne_none_iff_exists'.mp (hl.ne_none i)

theorem nodup_points {size : Nat} (hb : Bounded next size) (a : α) : (points size next a).Nodup := by
  rcases ends_or_loops hb a with ⟨l, hl⟩ | ⟨lead, period, hl⟩
  · rw [points_of_ends hb hl]
    exact hl.nodup
  · rw [points, extent_of_loops hb hl]
    exact hl.nodup

theorem length_points {size : Nat} (hb : Bounded next size) (a : α) :
    (points size next a).length = (extent size next a).cells := by
  refine length_walk fun i hi => ?_
  obtain ⟨b, hib⟩ := follow_of_lt hb hi
  rw [hib]
  exact Option.some_ne_none b

/-- A chain is cyclic if and only if it never ends. -/
theorem extent_cyclic_iff {size : Nat} (hb : Bounded next size) :
    (extent size next a).cyclic = true ↔ ¬ ∃ l, Ends next a l := by
  rcases ends_or_loops hb a with ⟨l, hl⟩ | ⟨lead, period, hl⟩
  · rw [extent_of_ends hb hl]; simp; exact ⟨l, hl⟩
  · rw [extent_of_loops hb hl]
    simp only [true_iff]
    rintro ⟨l, he⟩
    have hn := he.follow_eq l.length
    rw [List.getElem?_eq_none (Nat.le_refl _)] at hn
    exact hl.ne_none _ hn

/-! ## Only the links along the chain count -/

omit [DecidableEq α] in
theorem follow_congr {next' : α → Option α}
    (h : ∀ i b, follow next i a = some b → next' b = next b) (i : Nat) :
    follow next' i a = follow next i a := by
  induction i with
  | zero => rfl
  | succ i ih =>
    rw [follow_succ, follow_succ, ih]
    cases hi : follow next i a with
    | none => rfl
    | some b => exact h i b hi

omit [DecidableEq α] in
theorem walk_congr {next' : α → Option α}
    (h : ∀ i b, follow next i a = some b → next' b = next b) (n : Nat) :
    walk next' n a = walk next n a :=
  List.ext_getElem? fun i => by rw [getElem?_walk, getElem?_walk, follow_congr h]

theorem extent_congr {next' : α → Option α} {size size' : Nat} (hb : Bounded next size)
    (hb' : Bounded next' size') (h : ∀ i b, follow next i a = some b → next' b = next b) :
    extent size' next' a = extent size next a := by
  rcases ends_or_loops hb a with ⟨l, hl⟩ | ⟨lead, period, hl⟩
  · have hl' : ∃ m, Ends next' a m := ends_of_follow_none (n := l.length) (by
      rw [follow_congr h, hl.follow_eq, List.getElem?_eq_none (Nat.le_refl _)])
    obtain ⟨m, hm⟩ := hl'
    have hlm : m = l := List.ext_getElem? fun i => by rw [← hm.follow_eq, ← hl.follow_eq, follow_congr h]
    rw [extent_of_ends hb hl, extent_of_ends hb' hm, hlm]
  · have hl' : Loops next' a lead period :=
      ⟨hl.pos, by rw [follow_congr h, follow_congr h, hl.closes],
        fun i hi => by rw [follow_congr h]; exact hl.here i hi,
        fun i j hij hj => by rw [follow_congr h, follow_congr h]; exact hl.apart i j hij hj⟩
    rw [extent_of_loops hb hl, extent_of_loops hb' hl']

theorem points_congr {next' : α → Option α} {size size' : Nat} (hb : Bounded next size)
    (hb' : Bounded next' size') (h : ∀ i b, follow next i a = some b → next' b = next b) :
    points size' next' a = points size next a := by
  rw [points, points, extent_congr hb hb' h, walk_congr h]

end ScriptCore.Chain
