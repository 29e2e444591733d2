import Mathlib.Data.List.Count
import ScriptCore.Ownership.Holdings

/-!
# The books of a pool

`Balanced p out` says that the books of a pool are right when the references in `out` are held from outside: each
object counts one holder for every occurrence in `out` and for every slot that it is in, and what was destroyed is
what has no holder left. References on their way (a value that was taken out of a slot, a cell in the queue of
`drain`) belong to `out` too. So an operation that keeps the books only moves references between `out` and the
slots.
-/
namespace ScriptCore.Ownership

/-! ## Reading after writing -/

theorem lt_of_holdersAt {α : Type} {items : Array (Counted α)} {i : Nat} (h : 0 < holdersAt items i) :
    i < items.size := by
  by_contra hi
  simp [holdersAt, Array.getElem?_eq_none (Nat.not_lt.mp hi)] at h

theorem holdersAt_count {α : Type} (items : Array (Counted α)) (i : Nat) (f : Nat → Nat) (j : Nat) :
    holdersAt (items.modify i (Counted.count f)) j =
      if j = i ∧ i < items.size then f (holdersAt items i) else holdersAt items j := by
  unfold holdersAt
  rw [Array.getElem?_modify]
  by_cases h : j = i
  · subst h
    by_cases hj : j < items.size <;> simp [hj, Counted.count]
  · simp [h, Ne.symm h]

theorem holdersAt_push {α : Type} (items : Array (Counted α)) (x : Counted α) (j : Nat) :
    holdersAt (items.push x) j = if j = items.size then x.holders else holdersAt items j := by
  unfold holdersAt
  rw [Array.getElem?_push]
  split <;> simp

namespace Pool

/-- There is such an object, alive or not. -/
def Has (p : Pool) : Ref → Prop
  | .cell c => c.index < p.cells.size
  | .atom a => a.index < p.leaves.size

section Primitives

variable (p : Pool) (r : Ref) (f : Nat → Nat) (c : CellId) (g : Cell → Cell)

theorem has_of_holders {p : Pool} {r : Ref} (h : 0 < p.holders r) : p.Has r := by
  cases r <;> exact lt_of_holdersAt h

theorem has_count (r' : Ref) : (p.count r f).Has r' ↔ p.Has r' := by
  cases r <;> cases r' <;> simp [Has, count]

theorem has_modifyCell (r' : Ref) : (p.modifyCell c g).Has r' ↔ p.Has r' := by
  cases r' <;> simp [Has, modifyCell]

theorem holders_count {p : Pool} {r : Ref} (h : 0 < p.holders r) (f : Nat → Nat) (r' : Ref) :
    (p.count r f).holders r' = if r' = r then f (p.holders r) else p.holders r' := by
  rcases r with ⟨⟨i⟩⟩ | ⟨⟨i⟩⟩ <;> rcases r' with ⟨⟨j⟩⟩ | ⟨⟨j⟩⟩
  · simp [holders, count, holdersAt_count, lt_of_holdersAt h]
  · simp [holders, count]
  · simp [holders, count]
  · simp [holders, count, holdersAt_count, lt_of_holdersAt h]

theorem holders_count_le (r' : Ref) : (p.count r (· - 1)).holders r' ≤ p.holders r' := by
  rcases r with ⟨⟨i⟩⟩ | ⟨⟨i⟩⟩ <;> rcases r' with ⟨⟨j⟩⟩ | ⟨⟨j⟩⟩
  · simp only [holders, count, holdersAt_count]
    split
    · next h => rw [h.1]; omega
    · exact Nat.le_refl _
  · exact Nat.le_refl _
  · exact Nat.le_refl _
  · simp only [holders, count, holdersAt_count]
    split
    · next h => rw [h.1]; omega
    · exact Nat.le_refl _

theorem destroyed_count : (p.count r f).destroyed = p.destroyed := by
  cases r <;> rfl

theorem holders_modifyCell (r' : Ref) : (p.modifyCell c g).holders r' = p.holders r' := by
  rcases r' with ⟨j⟩ | ⟨j⟩
  · simp only [holders, holdersAt, modifyCell, Array.getElem?_modify]
    split <;> simp [Function.comp_def]
  · rfl

theorem cell_count (d : CellId) : (p.count r f).cell d = p.cell d := by
  cases r with
  | atom a => rfl
  | cell c =>
    simp only [cell, count, Array.getElem?_modify]
    by_cases h : c.index = d.index
    · cases hd : p.cells[d.index]? <;> simp [h, Counted.count]
    · simp [h]

theorem cell_modifyCell_ne {p : Pool} {c d : CellId} (h : d ≠ c) : (p.modifyCell c g).cell d = p.cell d := by
  have hi : c.index ≠ d.index := fun e => h (by cases c; cases d; cases e; rfl)
  simp [cell, modifyCell, Array.getElem?_modify, hi]

theorem cell_modifyCell_self {p : Pool} {c : CellId} (h : c.index < p.cells.size) :
    (p.modifyCell c g).cell c = g (p.cell c) := by
  simp [cell, modifyCell, Array.getElem_modify, h]

theorem has_clearCell (r' : Ref) : (p.clearCell c).Has r' ↔ p.Has r' :=
  has_modifyCell p c (fun cell => { cell with car := none, cdr := none }) r'

theorem holders_clearCell (r' : Ref) : (p.clearCell c).holders r' = p.holders r' :=
  holders_modifyCell p c (fun cell => { cell with car := none, cdr := none }) r'

theorem cell_clearCell_ne {p : Pool} {c d : CellId} (h : d ≠ c) : (p.clearCell c).cell d = p.cell d :=
  cell_modifyCell_ne (fun cell => { cell with car := none, cdr := none }) h

theorem refs_clearCell {p : Pool} {c : CellId} (h : c.index < p.cells.size) :
    ((p.clearCell c).cell c).refs = [] :=
  congrArg Cell.refs (cell_modifyCell_self (fun cell => { cell with car := none, cdr := none }) h)

theorem slots_clearCell {p : Pool} {c : CellId} (h : c.index < p.cells.size) :
    p.slots.Perm ((p.cell c).refs ++ (p.clearCell c).slots) := by
  obtain ⟨rest, hold, hnew⟩ := p.exists_slots h
  exact hold.trans ((hnew fun cell => { cell with car := none, cdr := none }).symm.append_left _)

theorem holders_newCell (cell : Cell) (r' : Ref) :
    (p.newCell cell).2.holders r' = if r' = .cell (p.newCell cell).1 then 1 else p.holders r' := by
  rcases r' with ⟨⟨i⟩⟩ | _
  · simp [holders, newCell, holdersAt_push]
  · simp [holders, newCell]

theorem destroyed_acquire (v : Value) : (p.acquire v).destroyed = p.destroyed := by
  cases v with
  | none => rfl
  | some r => exact destroyed_count ..

theorem destroyed_newChain (kind : CellKind) (items : List Value) :
    (p.newChain kind items).2.destroyed = p.destroyed := by
  induction items with
  | nil => rfl
  | cons v items ih => exact (destroyed_acquire _ v).trans ih

theorem destroyed_nest (n : Nat) (v : Value) : (p.nest n v).2.destroyed = p.destroyed := by
  induction n generalizing p v with
  | zero => rfl
  | succ n ih => exact ih ..

theorem mem_slots {p : Pool} {c : CellId} {r : Ref} (h : r ∈ (p.cell c).refs) : r ∈ p.slots := by
  by_cases hc : c.index < p.cells.size
  · obtain ⟨rest, hold, -⟩ := p.exists_slots hc
    exact hold.mem_iff.mpr (List.mem_append_left rest h)
  · simp [cell, Nat.not_lt.mp hc, Cell.refs, Value.ofLink] at h

theorem mem_refs_of_mem_slots {p : Pool} {r : Ref} (h : r ∈ p.slots) : ∃ c, r ∈ (p.cell c).refs := by
  obtain ⟨counted, hmem, hr⟩ := List.mem_flatMap.mp h
  obtain ⟨i, hi, he⟩ := List.mem_iff_getElem.mp hmem
  refine ⟨⟨i⟩, ?_⟩
  have hsize : i < p.cells.size := by simpa using hi
  have hcell : p.cell ⟨i⟩ = counted.content := by
    rw [← he]; simp [cell, hsize]
  rwa [hcell]

end Primitives

end Pool

/-! ## Balanced books -/

/-- The books of a pool are right, with `out` held from outside. -/
structure Balanced (p : Pool) (out : List Ref) : Prop where
  counts : ∀ r, p.holders r = out.count r + p.slots.count r
  empty : ∀ c, p.holders (.cell c) = 0 → (p.cell c).refs = []
  log : ∀ r, r ∈ p.destroyed ↔ p.Has r ∧ p.holders r = 0
  once : p.destroyed.toList.Nodup

namespace Balanced

variable {p : Pool} {out out' : List Ref} {r : Ref} {c : CellId}

theorem perm (h : Balanced p out) (hp : out.Perm out') : Balanced p out' :=
  ⟨fun r => by rw [← hp.count_eq]; exact h.counts r, h.empty, h.log, h.once⟩

theorem alive_of_mem (h : Balanced p out) (hr : r ∈ out) : 0 < p.holders r := by
  have := List.count_pos_iff.mpr hr
  have := h.counts r
  omega

theorem alive_of_mem_refs (h : Balanced p out) (hr : r ∈ (p.cell c).refs) : 0 < p.holders r := by
  have := List.count_pos_iff.mpr (Pool.mem_slots hr)
  have := h.counts r
  omega

/-- A number of holders changes and does not become zero. -/
theorem count (h : Balanced p out) (hr : 0 < p.holders r) {f : Nat → Nat} (hf : 0 < f (p.holders r))
    (hout : ∀ r', (if r' = r then f (p.holders r) else p.holders r') = out'.count r' + p.slots.count r') :
    Balanced (p.count r f) out' := by
  have hzero : ∀ r', (p.count r f).holders r' = 0 ↔ p.holders r' = 0 := by
    intro r'
    rw [Pool.holders_count hr]
    split
    · next e => subst e; omega
    · rfl
  refine ⟨fun r' => ?_, fun d hd => ?_, fun r' => ?_, ?_⟩
  · rw [Pool.holders_count hr, Pool.slots_count, hout]
  · rw [Pool.cell_count]; exact h.empty d ((hzero _).mp hd)
  · rw [hzero, Pool.has_count, Pool.destroyed_count]; exact h.log r'
  · rw [Pool.destroyed_count]; exact h.once

theorem acquire (h : Balanced p out) {v : Value} (hv : ∀ r ∈ v, 0 < p.holders r) :
    Balanced (p.acquire v) (v.toList ++ out) := by
  cases v with
  | none => exact h
  | some r =>
    refine h.count (hv r rfl) (Nat.succ_pos _) fun r' => ?_
    have := h.counts r'
    by_cases e : r' = r
    · subst e; simp; omega
    · simp [e, Ne.symm e]; omega

/-- An object that is new has one holder, which is the caller. -/
theorem fresh {q : Pool} (h : Balanced p out) (held : List Ref) (hr : ¬ p.Has r)
    (hhas : ∀ r', q.Has r' ↔ p.Has r' ∨ r' = r) (hholders : ∀ r', q.holders r' = if r' = r then 1 else p.holders r')
    (hslots : q.slots.Perm (held ++ p.slots)) (hout : out.Perm (held ++ out'))
    (hempty : ∀ c, Ref.cell c ≠ r → q.cell c = p.cell c) (hlog : q.destroyed = p.destroyed) :
    Balanced q (r :: out') := by
  -- Nothing has no holders, so `r` stood nowhere before.
  have hzero : p.holders r = 0 := Nat.eq_zero_of_not_pos fun e => hr (Pool.has_of_holders e)
  refine ⟨fun r' => ?_, fun d hd => ?_, fun r' => ?_, by rw [hlog]; exact h.once⟩
  · have h₁ := h.counts r'
    rw [hout.count_eq, List.count_append] at h₁
    rw [hholders, hslots.count_eq, List.count_append, List.count_cons]
    by_cases e : r' = r
    · subst e; simp; omega
    · simp [e, Ne.symm e]; omega
  · rw [hholders] at hd
    split at hd
    · omega
    · next e => rw [hempty d e]; exact h.empty d hd
  · rw [hlog, hhas, hholders, h.log]
    by_cases e : r' = r
    · subst e; simp [hr]
    · simp [e]

theorem newLeaf (h : Balanced p out) (label : String) :
    Balanced (p.newLeaf label).2 (.atom (p.newLeaf label).1 :: out) := by
  refine h.fresh [] ?_ (fun r' => ?_) (fun r' => ?_) (.refl _) (.refl _) (fun _ _ => rfl) rfl
  · simp [Pool.Has, Pool.newLeaf]
  · rcases r' with _ | ⟨⟨i⟩⟩
    · simp [Pool.Has, Pool.newLeaf]
    · simp [Pool.Has, Pool.newLeaf]; omega
  · rcases r' with _ | ⟨⟨i⟩⟩
    · simp [Pool.holders, Pool.newLeaf]
    · simp [Pool.holders, Pool.newLeaf, holdersAt_push]

theorem newCell {cell : Cell} (h : Balanced p (cell.refs ++ out)) :
    Balanced (p.newCell cell).2 (.cell (p.newCell cell).1 :: out) := by
  refine h.fresh cell.refs ?_ (fun r' => ?_) (p.holders_newCell cell) ?_ (.refl _) (fun d hd => ?_) rfl
  · simp [Pool.Has, Pool.newCell]
  · rcases r' with ⟨⟨i⟩⟩ | _
    · simp [Pool.Has, Pool.newCell]; omega
    · simp [Pool.Has, Pool.newCell]
  · simpa [Pool.slots, Pool.newCell] using List.perm_append_comm
  · have hi : d.index ≠ p.cells.size := fun e => hd (by cases d; cases e; rfl)
    simp [Pool.cell, Pool.newCell, Array.getElem?_push, hi]

/-- References change place between the slots of a living cell and the outside. -/
theorem modifyCell {gain loss : List Ref} {g : Cell → Cell} (h : Balanced p (gain ++ out))
    (hc : 0 < p.holders (.cell c)) (hrefs : ((p.cell c).refs ++ gain).Perm ((g (p.cell c)).refs ++ loss)) :
    Balanced (p.modifyCell c g) (loss ++ out) := by
  obtain ⟨rest, hold, hnew⟩ := p.exists_slots (Pool.has_of_holders hc)
  refine ⟨fun r => ?_, fun d hd => ?_, fun r => ?_, h.once⟩
  · have h₁ := h.counts r
    have h₂ := hrefs.count_eq r
    rw [hold.count_eq] at h₁
    rw [Pool.holders_modifyCell, (hnew g).count_eq]
    simp only [List.count_append] at h₁ h₂ ⊢
    omega
  · rw [Pool.holders_modifyCell] at hd
    have hdc : d ≠ c := fun e => by subst e; omega
    rw [Pool.cell_modifyCell_ne g hdc]
    exact h.empty d hd
  · rw [Pool.has_modifyCell, Pool.holders_modifyCell]; exact h.log r

/-! ### Letting go -/

/-- An object that loses its last holder is destroyed. What it held is held from outside then. -/
theorem dies {q : Pool} (h : Balanced p (r :: out)) (held : List Ref) (hr : p.holders r = 1)
    (hhas : ∀ r', q.Has r' ↔ p.Has r') (hholders : ∀ r', q.holders r' = if r' = r then 0 else p.holders r')
    (hslots : p.slots.Perm (held ++ q.slots)) (hempty : ∀ c, Ref.cell c = r → (q.cell c).refs = [])
    (hother : ∀ c, Ref.cell c ≠ r → q.cell c = p.cell c) (hlog : q.destroyed = p.destroyed.push r) :
    Balanced q (held ++ out) := by
  have hnew : r ∉ p.destroyed := fun e => by have := ((h.log r).mp e).2; omega
  -- The one holder of `r` is the reference that goes, so `r` stands in no slot, not in its own either.
  refine ⟨fun r' => ?_, fun d hd => ?_, fun r' => ?_, ?_⟩
  · have h₁ := h.counts r'
    rw [hslots.count_eq, List.count_append, List.count_cons] at h₁
    rw [hholders, List.count_append]
    by_cases e : r' = r
    · subst e; simp [hr] at h₁ ⊢; omega
    · simp [e, Ne.symm e] at h₁ ⊢; omega
  · by_cases e : Ref.cell d = r
    · exact hempty d e
    · rw [hholders, if_neg e] at hd
      rw [hother d e]; exact h.empty d hd
  · rw [hlog, Array.mem_push, hhas, hholders, h.log]
    by_cases e : r' = r
    · subst e; simp [Pool.has_of_holders (p := p) (r := r') (by omega)]
    · simp [e]
  · rw [hlog, Array.toList_push, List.nodup_append]
    refine ⟨h.once, by simp, fun x hx y hy => ?_⟩
    rw [List.mem_singleton.mp hy]
    exact fun e => hnew (e ▸ Array.mem_toList_iff.mp hx)

/-- One of several holders is taken away. -/
theorem decrement (h : Balanced p (r :: out)) (hr : (p.count r (· - 1)).holders r ≠ 0) :
    Balanced (p.count r (· - 1)) out := by
  have halive := h.alive_of_mem List.mem_cons_self
  rw [Pool.holders_count halive, if_pos rfl] at hr
  refine h.count halive (Nat.pos_of_ne_zero hr) fun r' => ?_
  have h₁ := h.counts r'
  rw [List.count_cons] at h₁
  by_cases e : r' = r
  · subst e; simp at h₁ ⊢; omega
  · simp [e, Ne.symm e] at h₁ ⊢; omega

theorem holders_eq_one (h : Balanced p (r :: out)) (hr : (p.count r (· - 1)).holders r = 0) : p.holders r = 1 := by
  have halive := h.alive_of_mem List.mem_cons_self
  rw [Pool.holders_count halive, if_pos rfl] at hr
  omega

theorem releaseLeaf {a : AtomId} (h : Balanced p (.atom a :: out)) : Balanced (p.releaseLeaf a) out := by
  simp only [Pool.releaseLeaf]
  split
  · next hz =>
    have hone := h.holders_eq_one hz
    have hholders := Pool.holders_count (p := p) (r := .atom a) (by omega) (· - 1)
    rw [hone] at hholders
    exact h.dies (q := (p.count (.atom a) (· - 1)).log (.atom a)) [] hone
      (Pool.has_count p (.atom a) (· - 1)) hholders (.refl _) (fun c e => Ref.noConfusion e) (fun _ _ => rfl) rfl
  · next hz => exact h.decrement hz

theorem letGo {v : Value} (h : Balanced p (v.toList ++ out)) :
    Balanced (p.letGo v).2 ((p.letGo v).1.map .cell ++ out) := by
  rcases v with _ | c | a
  · exact h
  · exact h
  · exact h.releaseLeaf

theorem clearCell (h : Balanced p (.cell c :: out)) (hz : (p.count (.cell c) (· - 1)).holders (.cell c) = 0) :
    Balanced ((p.count (.cell c) (· - 1)).clearCell c) ((p.cell c).refs ++ out) := by
  have hone := h.holders_eq_one hz
  have hc : (p.count (.cell c) (· - 1)).Has (.cell c) :=
    (Pool.has_count ..).mpr (Pool.has_of_holders (by omega))
  have hslots := Pool.slots_clearCell hc
  rw [Pool.slots_count, Pool.cell_count] at hslots
  refine h.dies _ hone (fun r' => ?_) (fun r' => ?_) hslots (fun d hd => ?_) (fun d hd => ?_) ?_
  · rw [Pool.has_clearCell, Pool.has_count]
  · rw [Pool.holders_clearCell, Pool.holders_count (by omega), hone]
  · cases hd; exact Pool.refs_clearCell hc
  · rw [Pool.cell_clearCell_ne fun e => hd (congrArg Ref.cell e), Pool.cell_count]
  · rfl

/-- One entry of the queue: a cell that dies hands its references on. -/
theorem dropCell (h : Balanced p (.cell c :: out)) :
    Balanced (p.dropCell c).2 ((p.dropCell c).1.map .cell ++ out) := by
  simp only [Pool.dropCell]
  split
  · next hz =>
    have hclear := h.clearCell hz
    have hcell : (p.count (.cell c) (· - 1)).cell c = p.cell c := Pool.cell_count ..
    simp only [Pool.destroyCell, hcell, List.map_append]
    rw [Cell.refs, List.append_assoc] at hclear
    have hlet := hclear.letGo
    rw [← List.append_assoc] at hlet
    cases hcdr : (p.cell c).cdr <;> simpa [hcdr, Value.ofLink] using hlet
  · next hz => exact h.decrement hz

theorem drain {queue : List CellId} (h : Balanced p (queue.map .cell ++ out)) : Balanced (Pool.drain queue p) out := by
  fun_induction Pool.drain queue p with
  | case1 p => exact h
  | case2 p c queue next ih =>
    refine ih ((dropCell h).perm ?_)
    simp only [List.map_append, List.append_assoc, next]
    exact List.perm_append_comm_assoc ..

theorem release {v : Value} (h : Balanced p (v.toList ++ out)) : Balanced (p.release v) out :=
  h.letGo.drain

/-! ### Building -/

theorem replaceCar {v : Value} (h : Balanced p (v.toList ++ out)) (hc : 0 < p.holders (.cell c)) :
    Balanced (p.replaceCar c v).2 ((p.replaceCar c v).1.toList ++ out) := by
  simp only [Pool.replaceCar]
  refine h.modifyCell hc (List.perm_iff_count.mpr fun r => ?_)
  simp only [Cell.refs, List.count_append]
  omega

theorem replaceCdr {link : Option CellId} (h : Balanced p ((Value.ofLink link).toList ++ out))
    (hc : 0 < p.holders (.cell c)) :
    Balanced (p.replaceCdr c link).2 ((p.replaceCdr c link).1.toList ++ out) := by
  simp only [Pool.replaceCdr]
  refine h.modifyCell hc (List.perm_iff_count.mpr fun r => ?_)
  simp only [Cell.refs, List.count_append]
  omega

theorem alive_acquire {v : Value} (hv : ∀ r ∈ v, 0 < p.holders r) (hr : 0 < p.holders r) :
    0 < (p.acquire v).holders r := by
  cases v with
  | none => exact hr
  | some r' =>
    simp only [Pool.acquire, Pool.holders_count (hv r' rfl)]
    split <;> omega

theorem alive_newCell (cell : Cell) (hr : 0 < p.holders r) : 0 < (p.newCell cell).2.holders r := by
  rw [Pool.holders_newCell]
  split <;> omega

/-- The elements of a new chain are alive before, and all that is alive stays so. -/
theorem newChain (h : Balanced p out) (kind : CellKind) {items : List Value}
    (hitems : ∀ v ∈ items, ∀ r ∈ v, 0 < p.holders r) :
    Balanced (p.newChain kind items).2 ((Value.ofLink (p.newChain kind items).1).toList ++ out) ∧
      ∀ r, 0 < p.holders r → 0 < (p.newChain kind items).2.holders r := by
  induction items with
  | nil => exact ⟨h, fun _ hr => hr⟩
  | cons v items ih =>
    obtain ⟨hb, halive⟩ := ih fun w hw => hitems w (List.mem_cons_of_mem v hw)
    have hv : ∀ r ∈ v, 0 < (p.newChain kind items).2.holders r :=
      fun r hr => halive r (hitems v List.mem_cons_self r hr)
    refine ⟨newCell ?_, fun r hr => alive_newCell _ (alive_acquire hv (halive r hr))⟩
    have hacq := hb.acquire hv
    rwa [← List.append_assoc] at hacq

theorem nest {v : Value} (h : Balanced p (v.toList ++ out)) (n : Nat) :
    Balanced (p.nest n v).2 ((p.nest n v).1.toList ++ out) := by
  induction n generalizing p v with
  | zero => exact h
  | succ n ih =>
    refine ih (v := some (.cell (p.newCell { car := v }).1)) (newCell ?_)
    simpa [Cell.refs, Value.ofLink] using h

theorem alive_next (h : Balanced p out) {d : CellId} (hd : p.next c = some d) : 0 < p.holders (.cell d) := by
  refine h.alive_of_mem_refs (c := c) ?_
  rw [Pool.next] at hd
  simp [Cell.refs, hd, Value.ofLink]

theorem alive_last (h : Balanced p out) (n : Nat) (hc : 0 < p.holders (.cell c)) :
    0 < p.holders (.cell (Chain.last p.next n c)) := by
  induction n generalizing c with
  | zero => exact hc
  | succ n ih =>
    rw [Chain.last]
    split
    · exact hc
    · next d hd => exact ih (h.alive_next hd)

theorem append {v : Value} (h : Balanced p (v.toList ++ out)) (hc : 0 < p.holders (.cell c)) :
    Balanced (p.append c v).2 ((p.append c v).1.toList ++ out) := by
  refine replaceCdr (newCell ?_) (alive_newCell _ (h.alive_last _ hc))
  simpa [Cell.refs, Value.ofLink] using h

end Balanced

end ScriptCore.Ownership
