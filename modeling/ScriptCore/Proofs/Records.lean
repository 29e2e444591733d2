import Mathlib
import ScriptCore.Lock

/-!
# Records that fit the guards

The records by which requests are judged are redundant: the locks themselves, the writer noted at each cell and
the thread's list of readings all follow from the guards that are held (`Tracks`). The list of readings has an
entry for each guard, and which of several equal entries is taken out makes no difference (`count_forget`).

`Accounts` says of one cell that its lock and its writer fit the numbers of its guards. Taking a guard and letting
go of it change the account of one cell and leave all others (`Tracks.enter`, `Tracks.release`), so a judgement by
the records is one by the guards (`Tracks.objection_eq_none_iff`), and what they let pass does not have to wait
for the lock (`Tracks.granted`).
-/
namespace ScriptCore.Lock

/-! ## The list of readings -/

theorem getElem?_of_lastPosition {held : Array LockId} {c : LockId} {n i : Nat}
    (h : lastPosition held c n = some i) : held[i]? = some c := by
  induction n with
  | zero => simp [lastPosition] at h
  | succ n ih =>
    rw [lastPosition] at h
    split at h
    · cases h; assumption
    · exact ih h

theorem ne_of_lastPosition {held : Array LockId} {c : LockId} {n : Nat}
    (h : lastPosition held c n = none) : ∀ i, i < n → held[i]? ≠ some c := by
  induction n with
  | zero => simp
  | succ n ih =>
    rw [lastPosition] at h
    split at h
    · cases h
    · next hn =>
      intro i hi
      by_cases hin : i = n
      · subst hin; exact hn
      · exact ih h i (by omega)

/-- Moving the last entry to the place of another one, and shortening the list, takes that other one out. -/
theorem count_swap_pop {held : Array LockId} {c : LockId} {i : Nat} (hi : i < held.size) (he : held[i] = c)
    (d : LockId) :
    held.count d = (held.swapIfInBounds i (held.size - 1)).pop.count d + if c = d then 1 else 0 := by
  have hlast : held.size - 1 < held.size := by omega
  -- After the swap the entry of `c` is the last one, and that is the one that goes.
  have hpop : (held.swap i (held.size - 1)).pop.push c = held.swap i (held.size - 1) := by
    apply Array.ext
    · simp; omega
    · intro j h₁ h₂
      grind
  have hperm := Array.perm_iff_toList_perm.mp (Array.swap_perm hi hlast)
  rw [Array.swapIfInBounds_def, dif_pos hi, dif_pos hlast, ← Array.count_toList, ← hperm.count_eq d, ← hpop,
    Array.count_toList, Array.count_push]
  simp

/-- One entry of the cell goes, whichever place it had, and no other. -/
theorem count_forget (held : Array LockId) (c d : LockId) :
    (forget held c).count d = held.count d - if c = d then 1 else 0 := by
  unfold forget
  split
  · next h =>
    -- There is no entry to take out, and the subtraction stops at zero.
    have hc : c ∉ held := by
      intro hc
      obtain ⟨i, hi, he⟩ := Array.mem_iff_getElem.mp hc
      exact ne_of_lastPosition h i hi (by rw [Array.getElem?_eq_getElem hi, he])
    by_cases hd : c = d
    · subst hd; simp [Array.count_eq_zero.mpr hc]
    · simp [hd]
  · next i h =>
    obtain ⟨hi, he⟩ := Array.getElem?_eq_some_iff.mp (getElem?_of_lastPosition h)
    rw [count_swap_pop hi he d]
    omega

/-! ## One cell -/

/-- The lock of a cell and its writer fit the guards of thread `t`: `reads` for reading and `writes` for writing. -/
structure Accounts (t : ThreadId) (reads writes : Nat) (cell : GuardedCell) : Prop where
  readers : cell.latch.readers = reads
  latched : cell.latch.writer = decide (writes ≠ 0)
  writer : cell.writer = if writes = 0 then none else some t
  alone : writes ≤ 1
  exclusive : writes = 0 ∨ reads = 0

namespace Accounts

variable {t : ThreadId} {reads writes : Nat} {cell : GuardedCell}

theorem fresh (t : ThreadId) (n : Int64) : Accounts t 0 0 { value := n } :=
  ⟨rfl, rfl, rfl, by omega, by omega⟩

theorem writer_iff (h : Accounts t reads writes cell) : cell.writer = some t ↔ 0 < writes := by
  rw [h.writer]
  split <;> simp <;> omega

theorem take_read (h : Accounts t reads 0 cell) :
    ∃ latch, cell.latch.take .read = some latch ∧ Accounts t (reads + 1) 0 { cell with latch } := by
  refine ⟨{ cell.latch with readers := cell.latch.readers + 1 }, ?_, ?_⟩
  · simp [Latch.take, h.latched]
  · exact ⟨by rw [h.readers], h.latched, h.writer, h.alone, .inl rfl⟩

theorem take_write (h : Accounts t 0 0 cell) :
    ∃ latch, cell.latch.take .write = some latch ∧
      Accounts t 0 1 { { cell with latch } with writer := some t } := by
  refine ⟨{ cell.latch with writer := true }, ?_, ?_⟩
  · simp [Latch.take, h.latched, h.readers]
  · exact ⟨h.readers, rfl, rfl, by omega, .inr rfl⟩

theorem give_read (h : Accounts t (reads + 1) writes cell) :
    Accounts t reads writes { cell with latch := cell.latch.give .read } := by
  refine ⟨?_, h.latched, h.writer, h.alone, ?_⟩
  · simp [Latch.give, h.readers]
  · have := h.exclusive; omega

theorem give_write (h : Accounts t reads (writes + 1) cell) :
    Accounts t reads writes
      { { cell with writer := none } with latch := cell.latch.give .write } := by
  have hw : writes = 0 := by have := h.alone; omega
  subst hw
  exact ⟨h.readers, rfl, rfl, by omega, .inl rfl⟩

end Accounts

/-! ## States -/

theorem cell_modify (s : State) (c : LockId) (f : GuardedCell → GuardedCell) (d : LockId) :
    (s.modify c f).cell d = if d = c ∧ c.index < s.cells.size then f (s.cell d) else s.cell d := by
  unfold State.modify State.cell
  simp only [Array.getD_eq_getD_getElem?, Array.getElem?_modify]
  by_cases h : d = c
  · subst h
    by_cases hd : d.index < s.cells.size <;> simp [hd]
  · have hi : c.index ≠ d.index := fun e => h (by cases c; cases d; cases e; rfl)
    simp [h, hi]

@[simp] theorem size_modify (s : State) (c : LockId) (f : GuardedCell → GuardedCell) :
    (s.modify c f).cells.size = s.cells.size :=
  Array.size_modify

@[simp] theorem thread_modify (s : State) (c : LockId) (f : GuardedCell → GuardedCell) :
    (s.modify c f).thread = s.thread := rfl

/-! What taking a guard and letting go of it do to the records, cell by cell. -/

section Records

variable (s : State) (g : Guard) (latch : Latch)

theorem thread_enter : (s.enter g latch).thread = s.thread := by
  unfold State.enter State.record; split <;> rfl

theorem thread_release : (s.release g).thread = s.thread := by
  unfold State.release State.unrecord; split <;> rfl

theorem size_enter : (s.enter g latch).cells.size = s.cells.size := by
  unfold State.enter State.record; split <;> simp

theorem size_release : (s.release g).cells.size = s.cells.size := by
  unfold State.release State.unrecord; split <;> simp

theorem guards_enter : (s.enter g latch).guards = s.guards := by
  unfold State.enter State.record; split <;> rfl

theorem scopes_enter : (s.enter g latch).scopes = s.scopes := by
  unfold State.enter State.record; split <;> rfl

theorem guards_release : (s.release g).guards = s.guards := by
  unfold State.release State.unrecord; split <;> rfl

theorem scopes_release : (s.release g).scopes = s.scopes := by
  unfold State.release State.unrecord; split <;> rfl

theorem count_reading_enter (d : LockId) :
    (s.enter g latch).reading.count d = s.reading.count d + if g = ⟨d, .read⟩ then 1 else 0 := by
  obtain ⟨c, mode⟩ := g
  cases mode <;> simp [State.enter, State.record, State.modify, Array.count_push]

theorem count_reading_release (d : LockId) :
    (s.release g).reading.count d = s.reading.count d - if g = ⟨d, .read⟩ then 1 else 0 := by
  obtain ⟨c, mode⟩ := g
  cases mode <;> simp [State.release, State.unrecord, State.modify, count_forget]

theorem cell_enter_ne {d : LockId} (h : d ≠ g.lock) : (s.enter g latch).cell d = s.cell d := by
  unfold State.enter State.record
  split
  · exact (cell_modify ..).trans (if_neg fun e => h e.1)
  · rw [cell_modify, if_neg fun e => h e.1, cell_modify, if_neg fun e => h e.1]

theorem cell_release_ne {d : LockId} (h : d ≠ g.lock) : (s.release g).cell d = s.cell d := by
  unfold State.release State.unrecord
  rw [cell_modify, if_neg fun e => h e.1]
  split
  · rfl
  · rw [cell_modify, if_neg fun e => h e.1]

variable {s} {c : LockId} (hc : c.index < s.cells.size)
include hc

theorem cell_enter_read : (s.enter ⟨c, .read⟩ latch).cell c = { s.cell c with latch } :=
  (cell_modify ..).trans (if_pos ⟨rfl, hc⟩)

theorem cell_enter_write :
    (s.enter ⟨c, .write⟩ latch).cell c = { { s.cell c with latch } with writer := some s.thread } := by
  simp [State.enter, State.record, cell_modify, hc]

theorem cell_release_read :
    (s.release ⟨c, .read⟩).cell c = { s.cell c with latch := (s.cell c).latch.give .read } :=
  (cell_modify ..).trans (if_pos ⟨rfl, hc⟩)

theorem cell_release_write :
    (s.release ⟨c, .write⟩).cell c =
      { { s.cell c with writer := none } with latch := (s.cell c).latch.give .write } := by
  simp [State.release, State.unrecord, cell_modify, hc]

end Records

theorem count_cons_of_ne {g : Guard} {d : LockId} (h : d ≠ g.lock) (gs : List Guard) (mode : Mode) :
    (g :: gs).count ⟨d, mode⟩ = gs.count ⟨d, mode⟩ :=
  List.count_cons_of_ne fun e => h (congrArg Guard.lock e).symm

/-- The records of a state, which are its locks, writers and list of readings, follow from the guards `gs`. -/
structure Tracks (s : State) (gs : List Guard) : Prop where
  present : ∀ g ∈ gs, g.lock.index < s.cells.size
  reading : ∀ c, s.reading.count c = gs.count ⟨c, .read⟩
  cells : ∀ c, Accounts s.thread (gs.count ⟨c, .read⟩) (gs.count ⟨c, .write⟩) (s.cell c)

namespace Tracks

variable {s : State} {gs : List Guard} {g : Guard} {c : LockId}

theorem perm {gs' : List Guard} (h : Tracks s gs) (p : gs.Perm gs') : Tracks s gs' := by
  refine ⟨fun g hg => h.present g (p.mem_iff.mpr hg), fun c => ?_, fun c => ?_⟩
  · rw [h.reading, p.count_eq]
  · rw [← p.count_eq, ← p.count_eq]; exact h.cells c

/-- The records have nothing to do with who keeps the guards. -/
theorem kept (h : Tracks s gs) (guards : Dict String Guard) (scopes : List Guard) :
    Tracks { s with guards, scopes } gs :=
  ⟨h.present, h.reading, h.cells⟩

theorem new (h : Tracks s gs) (n : Int64) : Tracks (s.new n).2 gs := by
  refine ⟨fun g hg => ?_, h.reading, fun c => ?_⟩
  · have := h.present g hg
    simp only [State.new, Array.size_push]; omega
  · have hcell : (s.new n).2.cell c = if c.index = s.cells.size then { value := n } else s.cell c := by
      simp only [State.new, State.cell, Array.getD_eq_getD_getElem?, Array.getElem?_push]
      split <;> simp
    rw [hcell]
    split
    · next hc =>
      have hnone : ∀ mode, gs.count ⟨c, mode⟩ = 0 := by
        intro mode
        rw [List.count_eq_zero]
        intro hg
        have := h.present _ hg
        simp only at this; omega
      rw [hnone, hnone]
      exact .fresh s.thread n
    · exact h.cells c

theorem store (h : Tracks s gs) (c : LockId) (n : Int64) : Tracks (s.store c n) gs := by
  refine ⟨by simpa [State.store] using h.present, h.reading, fun d => ?_⟩
  obtain ⟨h₁, h₂, h₃, h₄, h₅⟩ := h.cells d
  unfold State.store
  rw [cell_modify]
  split <;> exact ⟨h₁, h₂, h₃, h₄, h₅⟩

/-- Taking a guard concerns its cell only. -/
theorem enter (h : Tracks s gs) (hg : g.lock.index < s.cells.size) {latch : Latch}
    (hcell : Accounts s.thread ((g :: gs).count ⟨g.lock, .read⟩) ((g :: gs).count ⟨g.lock, .write⟩)
      ((s.enter g latch).cell g.lock)) : Tracks (s.enter g latch) (g :: gs) := by
  refine ⟨?_, fun d => ?_, fun d => ?_⟩
  · simpa [size_enter] using ⟨hg, h.present⟩
  · rw [count_reading_enter, h.reading, List.count_cons]
    simp
  · rw [thread_enter]
    by_cases hd : d = g.lock
    · rw [hd]; exact hcell
    · rw [cell_enter_ne s g latch hd, count_cons_of_ne hd, count_cons_of_ne hd]
      exact h.cells d

/-- Letting go of a guard takes it out of the account of its cell. -/
theorem release (h : Tracks s (g :: gs)) : Tracks (s.release g) gs := by
  have hg : g.lock.index < s.cells.size := h.present g List.mem_cons_self
  refine ⟨fun g' hg' => ?_, fun d => ?_, fun d => ?_⟩
  · rw [size_release]; exact h.present g' (List.mem_cons_of_mem g hg')
  · rw [count_reading_release, h.reading, List.count_cons]
    simp
  · rw [thread_release]
    by_cases hd : d = g.lock
    · subst hd
      have hcell := h.cells g.lock
      obtain ⟨c, mode⟩ := g
      cases mode with
      | read =>
        rw [cell_release_read hg]
        exact Accounts.give_read (by simpa [List.count_cons] using hcell)
      | write =>
        rw [cell_release_write hg]
        exact Accounts.give_write (by simpa [List.count_cons] using hcell)
    · have hcell := h.cells d
      rw [count_cons_of_ne hd, count_cons_of_ne hd] at hcell
      rw [cell_release_ne s g hd]
      exact hcell

end Tracks

/-! ## Requests -/

/-- The guards that are in the way of a request. -/
def Guard.Conflicts (g : Guard) (gs : List Guard) : Prop :=
  match g.mode with
  | .read => ⟨g.lock, .write⟩ ∈ gs
  | .write => ⟨g.lock, .read⟩ ∈ gs ∨ ⟨g.lock, .write⟩ ∈ gs

theorem request_eq (g : Guard) (s : State) :
    request g s =
      if s.cells.size ≤ g.lock.index then .error .missing s
      else match s.objection g with
        | some v => .error (.violation v) s
        | none =>
          match (s.cell g.lock).latch.take g.mode with
          | none => .error .waiting s
          | some latch => .ok () (s.enter g latch) := by
  simp only [request, bind, EStateM.bind, get, getThe, MonadStateOf.get, EStateM.get]
  split
  · rfl
  · cases s.objection g with
    | some v => rfl
    | none => cases (s.cell g.lock).latch.take g.mode <;> rfl

namespace Tracks

variable {s : State} {gs : List Guard} {g : Guard}

/-- The records object exactly if a guard is in the way. -/
theorem objection_eq_none_iff (h : Tracks s gs) : s.objection g = none ↔ ¬ g.Conflicts gs := by
  have hw : (s.cell g.lock).writer = some s.thread ↔ ⟨g.lock, .write⟩ ∈ gs := by
    rw [(h.cells g.lock).writer_iff, List.count_pos_iff]
  have hr : g.lock ∈ s.reading ↔ ⟨g.lock, .read⟩ ∈ gs := by
    rw [← Array.count_pos_iff, h.reading, List.count_pos_iff]
  unfold State.objection Guard.Conflicts
  cases g.mode with
  | read => simp [hw]
  | write =>
    by_cases h₁ : (⟨g.lock, .write⟩ : Guard) ∈ gs <;> by_cases h₂ : (⟨g.lock, .read⟩ : Guard) ∈ gs <;>
      simp [hw, hr, h₁, h₂]

/-- Where no guard is in the way, the lock is free too. -/
theorem granted (h : Tracks s gs) (hg : g.lock.index < s.cells.size) (hfree : ¬ g.Conflicts gs) :
    ∃ latch, (s.cell g.lock).latch.take g.mode = some latch ∧ Tracks (s.enter g latch) (g :: gs) := by
  obtain ⟨c, mode⟩ := g
  have hcell := h.cells c
  cases mode with
  | read =>
    have hw : gs.count ⟨c, .write⟩ = 0 := List.count_eq_zero.mpr hfree
    rw [hw] at hcell
    obtain ⟨latch, htake, hnew⟩ := hcell.take_read
    refine ⟨latch, htake, h.enter hg ?_⟩
    simpa [cell_enter_read latch hg, List.count_cons, hw] using hnew
  | write =>
    have hr : gs.count ⟨c, .read⟩ = 0 := List.count_eq_zero.mpr fun e => hfree (.inl e)
    have hw : gs.count ⟨c, .write⟩ = 0 := List.count_eq_zero.mpr fun e => hfree (.inr e)
    rw [hr, hw] at hcell
    obtain ⟨latch, htake, hnew⟩ := hcell.take_write
    refine ⟨latch, htake, h.enter hg ?_⟩
    simpa [cell_enter_write latch hg, List.count_cons, hr, hw] using hnew

end Tracks

end ScriptCore.Lock
