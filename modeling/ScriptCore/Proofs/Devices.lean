import ScriptCore.Proofs.Wire
import ScriptCore.Wire.Device

/-!
# What devices deliver

However a device is put together, it delivers the bytes that are still to come, in order, and moves its place by as
many as it has delivered. One read may bring fewer bytes than are wanted, and how many depends on the device
(`read_gives`); the loop around the reads brings what is there (`upTo_device`).

`Device.Advances d n d'` says that `d'` is `d` behind the next `n` bytes, or behind all of them if there are fewer.
-/
namespace ScriptCore.Wire.Device

open InputStream (gather upTo)

/-- From `d` to `d'` the next `n` bytes were taken, or all that were there. -/
structure Advances (d : Device) (n : Nat) (d' : Device) : Prop where
  rest : d'.rest = d.rest.drop n
  position : d'.position = d.position.map (· + min n d.rest.length)
  breaks : d'.breaks = d.breaks

variable {d d' d'' : Device} {m n want : Nat}

theorem Advances.refl (d : Device) : d.Advances 0 d :=
  ⟨rfl, by simp, rfl⟩

theorem Advances.trans (h : d.Advances m d') (k : d'.Advances n d'') : d.Advances (m + n) d'' := by
  refine ⟨by rw [k.rest, h.rest, List.drop_drop], ?_, k.breaks.trans h.breaks⟩
  rw [k.position, h.position, h.rest, Option.map_map, List.length_drop]
  congr 1
  funext p
  simp only [Function.comp]
  omega

/-- What counts is how many bytes are taken, which is no more than are there. -/
theorem Advances.congr (h : d.Advances m d') (hmn : min m d.rest.length = min n d.rest.length) :
    d.Advances n d' := by
  refine ⟨?_, hmn ▸ h.position, h.breaks⟩
  rw [h.rest]
  rcases Nat.le_total m d.rest.length with hm | hm
  · rw [Nat.min_eq_left hm] at hmn
    subst hmn
    rcases Nat.le_total n d.rest.length with hn | hn
    · rw [Nat.min_eq_left hn]
    · rw [Nat.min_eq_right hn, List.drop_length, List.drop_eq_nil_of_le hn]
  · rw [List.drop_eq_nil_of_le hm, List.drop_eq_nil_of_le (by omega)]

/-! ## One read -/

/-- How a read for some bytes can end. It brings at least one of the bytes that are there; where there is none it
brings none, or fails if the stream breaks. -/
inductive Gives (d : Device) (want : Nat) : EStateM.Result SerialError Device (List UInt8) → Prop
  | failed {d' : Device} (none : d.rest = []) (broken : d.breaks = true) (moved : d.Advances 0 d') :
      Gives d want (.error (.stream .broken) d')
  | got {n : Nat} {bytes : List UInt8} {d' : Device} (bytes_eq : bytes = d.rest.take n) (moved : d.Advances n d')
      (le : n ≤ want) (pos : d.rest ≠ [] → 0 < n) (ends : d.rest = [] → d.breaks = false) :
      Gives d want (.ok bytes d')

theorem gives_cursor (data : List UInt8) (index : Nat) (hw : want ≠ 0) :
    Gives (.cursor data index) want (read want (.cursor data index)) := by
  refine .got (n := want) rfl ⟨?_, ?_, rfl⟩ (Nat.le_refl _) (fun _ => by omega) (fun _ => rfl)
  · simp only [rest, List.length_take, List.length_drop, List.drop_drop]
    rcases Nat.le_total want (data.length - index) with h | h
    · rw [Nat.min_eq_left h]
    · rw [List.drop_eq_nil_of_le (by omega), List.drop_eq_nil_of_le (by omega)]
  · simp [position, rest]

theorem gives_pieces (sizes : Nat → Nat) (breaks : Bool) (bytes : List UInt8) (hw : want ≠ 0) :
    Gives (.pieces sizes breaks bytes) want (read want (.pieces sizes breaks bytes)) := by
  cases bytes with
  | nil =>
    cases breaks with
    | false => exact .got (n := 0) rfl (.refl _) (by omega) (fun h => absurd rfl h) (fun _ => rfl)
    | true =>
      rw [read, if_pos (by simp [hw])]
      exact .failed rfl rfl (.refl _)
  | cons b bytes =>
    refine .got (n := min want (max 1 (sizes 0))) rfl ⟨rfl, rfl, rfl⟩ (by omega) (fun _ => by omega) (fun h => ?_)
    simp [rest] at h

/-- Reading past an empty buffer. -/
theorem gives_passed {capacity : Nat} {inner : Device} (hwc : capacity ≤ want)
    (h : Gives inner want (inner.read want)) :
    Gives (.buffered capacity [] inner) want (read want (.buffered capacity [] inner)) := by
  rw [read, if_pos hwc]
  generalize inner.read want = result at h
  cases h with
  | failed none broken moved => exact .failed none broken ⟨moved.rest, rfl, moved.breaks⟩
  | got hbytes moved le pos ends => exact .got hbytes ⟨moved.rest, rfl, moved.breaks⟩ le pos ends

/-- An empty buffer is filled, and gives of what was filled in. -/
theorem gives_filled {capacity : Nat} {inner : Device} (hw : want ≠ 0) (hwc : want < capacity)
    (h : Gives inner capacity (inner.read capacity)) :
    Gives (.buffered capacity [] inner) want (read want (.buffered capacity [] inner)) := by
  rw [read, if_neg (by omega)]
  generalize inner.read capacity = result at h
  cases h with
  | failed none broken moved => exact .failed none broken ⟨moved.rest, rfl, moved.breaks⟩
  | @got n filled inner' hbytes moved le pos ends =>
    subst hbytes
    refine .got (n := min want n) (List.take_take ..) ⟨?_, rfl, moved.breaks⟩ (by omega) (fun h => ?_) ends
    · simp only [rest, List.nil_append, moved.rest]
      rw [List.drop_take]
      rcases Nat.le_total n want with hn | hn
      · rw [Nat.min_eq_right hn, Nat.sub_eq_zero_of_le hn, List.take_zero, List.nil_append]
      · rw [Nat.min_eq_left hn, show inner.rest.drop n = (inner.rest.drop want).drop (n - want) by
          rw [List.drop_drop]; congr 1; omega, List.take_append_drop]
    · have := pos h
      omega

theorem gives_kept {capacity : Nat} {buffer : List UInt8} (inner : Device) (hw : want ≠ 0) (hb : buffer ≠ []) :
    Gives (.buffered capacity buffer inner) want (read want (.buffered capacity buffer inner)) := by
  have hpos := List.length_pos_iff.mpr hb
  have hread : read want (.buffered capacity buffer inner) =
      .ok (buffer.take want) (.buffered capacity (buffer.drop want) inner) := by
    cases buffer with
    | nil => exact absurd rfl hb
    | cons b buffer => rfl
  rw [hread]
  refine .got (n := min want buffer.length) ?_ ⟨?_, rfl, rfl⟩ (by omega) (fun _ => by omega) (fun h => ?_)
  · rw [rest, List.take_append_of_le_length (by omega), ← List.take_take, List.take_length]
  · rw [rest, rest, List.drop_append_of_le_length (by omega)]
    rcases Nat.le_total want buffer.length with hle | hle
    · rw [Nat.min_eq_left hle]
    · rw [Nat.min_eq_right hle, List.drop_length, List.drop_eq_nil_of_le hle]
  · rw [rest, List.append_eq_nil_iff] at h
    exact absurd h.1 hb

/-- One read of any device. -/
theorem read_gives (d : Device) (hw : want ≠ 0) : Gives d want (d.read want) := by
  induction d generalizing want with
  | cursor data index => exact gives_cursor data index hw
  | slice bytes => exact .got rfl ⟨rfl, rfl, rfl⟩ (Nat.le_refl _) (fun _ => by omega) (fun _ => rfl)
  | pieces sizes breaks bytes => exact gives_pieces sizes breaks bytes hw
  | boxed inner ih =>
    have h := ih hw
    rw [read]
    generalize inner.read want = result at h
    cases h with
    | failed none broken moved => exact .failed none broken ⟨moved.rest, moved.position, moved.breaks⟩
    | got hbytes moved le pos ends => exact .got hbytes ⟨moved.rest, moved.position, moved.breaks⟩ le pos ends
  | buffered capacity buffer inner ih =>
    by_cases hb : buffer = []
    · subst hb
      by_cases hwc : capacity ≤ want
      · exact gives_passed hwc (ih hw)
      · exact gives_filled hw (by omega) (ih (by omega))
    · exact gives_kept inner hw hb
  | tracked consumed inner ih =>
    have h := ih hw
    rw [read]
    generalize inner.read want = result at h
    cases h with
    | failed none broken moved => exact .failed none broken ⟨moved.rest, by simp [position], moved.breaks⟩
    | got hbytes moved le pos ends =>
      subst hbytes
      exact .got rfl ⟨moved.rest, by simp [position, rest], moved.breaks⟩ le pos ends

/-! ## The loop around the reads -/

/-- The loop brings all that is wanted, in whatever pieces; if that is not there, it uses up the input and ends or
breaks. -/
theorem gather_device (rounds want : Nat) (d : Device) (hr : want ≤ rounds) :
    ∃ d', d.Advances want d' ∧ gather rounds want d =
      if d.breaks = true ∧ d.rest.length < want then .error (.stream .broken) d'
      else .ok (d.rest.take want) d' := by
  induction rounds generalizing want d with
  | zero =>
    obtain rfl : want = 0 := by omega
    exact ⟨d, .refl d, by simp [gather, pure, EStateM.pure]⟩
  | succ rounds ih =>
    rw [gather]
    by_cases h0 : want = 0
    · subst h0
      exact ⟨d, .refl d, by simp [pure, EStateM.pure]⟩
    rw [if_neg h0, run_bind, show InputStream.pull want d = d.read want from rfl]
    have hread := read_gives d h0
    generalize d.read want = result at hread
    cases hread with
    | failed none broken moved =>
      refine ⟨_, moved.congr (by simp [none]), ?_⟩
      rw [if_pos ⟨broken, by rw [none]; simp; omega⟩]
    | @got n bytes d₁ hbytes moved le pos ends =>
      subst hbytes
      by_cases hrest : d.rest = []
      · refine ⟨d₁, moved.congr (by simp [hrest]), ?_⟩
        simp [hrest, ends hrest, pure, EStateM.pure]
      have hn := pos hrest
      have hlen := List.length_pos_iff.mpr hrest
      have hne : (d.rest.take n).isEmpty = false := by
        rw [List.isEmpty_eq_false_iff, ← List.length_pos_iff, List.length_take]
        omega
      simp only [hne, Bool.false_eq_true, if_false]
      obtain ⟨d₂, hmoved, hmore⟩ := ih (want - (d.rest.take n).length) d₁ (by rw [List.length_take]; omega)
      rw [run_bind, hmore]
      rw [List.length_take] at hmoved ⊢
      refine ⟨d₂, (moved.trans hmoved).congr ?_, ?_⟩
      · omega
      rw [moved.breaks, moved.rest, List.length_drop]
      by_cases hc : d.breaks = true ∧ d.rest.length < want
      · rw [if_pos hc, if_pos ⟨hc.1, by omega⟩]
      · rw [if_neg hc, if_neg fun h => hc ⟨h.1, by omega⟩]
        simp only [pure, EStateM.pure, EStateM.Result.ok.injEq, and_true]
        rcases Nat.le_total n d.rest.length with hle | hle
        · rw [Nat.min_eq_left hle, ← List.take_add, show n + (want - n) = want by omega]
        · rw [List.take_of_length_le hle, List.drop_eq_nil_of_le hle, List.take_nil, List.append_nil,
            List.take_of_length_le (by omega)]

/-- What is wanted of a device, as far as it is there. -/
theorem upTo_device (want : Nat) (d : Device) :
    ∃ d', d.Advances want d' ∧ upTo want d =
      if d.breaks = true ∧ d.rest.length < want then .error (.stream .broken) d'
      else .ok (d.rest.take want) d' :=
  gather_device want want d (Nat.le_refl _)

end ScriptCore.Wire.Device
