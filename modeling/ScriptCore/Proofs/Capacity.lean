import ScriptCore.Proofs.Writer

/-!
# Writing where room is limited

A value is written by many small writes inside a recursion that can fail for reasons of its own, before or after the
room is used up. What is written is the same for every sink, up to its room: with `d` levels open, a writer `Produces`
bytes and ends with a result, and a sink that has no room for the bytes takes the front of them and refuses the rest.
So a sink of limited room gets a prefix of what an unlimited one gets, counted byte by byte, and reports the result of
the unlimited one exactly if all of it fitted (`serialize_within_capacity`).
-/
namespace ScriptCore

open Wire NestedM

/-- A run that ended with a result, in a state. -/
def ended {ε σ α : Type} : Except ε α → σ → EStateM.Result ε σ α
  | .ok a, s => .ok a s
  | .error e, s => .error e s

namespace Wire.Sink

/-- The front of some bytes, as much as there is room for. -/
def front (sink : Sink) (p : List UInt8) : List UInt8 :=
  p.take (sink.room p.length)

/-- How writing ends that would end with `r` after the bytes `p`. -/
def verdict (sink : Sink) (p : List UInt8) (r : Except SerialError Unit) : Except SerialError Unit :=
  if sink.room p.length < p.length then .error (.stream .noRoom) else r

variable {sink : Sink} {p : List UInt8}

theorem front_of_fits (h : ¬ sink.room p.length < p.length) : sink.front p = p :=
  List.take_of_length_le (Nat.not_lt.mp h)

/-- Bytes behind others that fit have the room that these leave. -/
theorem front_append (h : ¬ sink.room p.length < p.length) (q : List UInt8) :
    sink.front (p ++ q) = p ++ (sink.push p).front q := by
  have hadd := sink.room_add p.length q.length
  have hfront : p.take (sink.room (p.length + q.length)) = p := List.take_of_length_le (by omega)
  rw [front, front, room_push, List.length_append, List.take_append, hfront]

theorem verdict_append (h : ¬ sink.room p.length < p.length) (q : List UInt8) (r : Except SerialError Unit) :
    sink.verdict (p ++ q) r = (sink.push p).verdict q r := by
  have hadd := sink.room_add p.length q.length
  rw [verdict, verdict, room_push, List.length_append]
  by_cases hq : sink.room (p.length + q.length) < p.length + q.length
  · rw [if_pos hq, if_pos (by omega)]
  · rw [if_neg hq, if_neg (by omega)]

/-- Where there is no room for some bytes, it does not matter what stands behind them. -/
theorem cut_append (h : sink.room p.length < p.length) (q : List UInt8) (r : Except SerialError Unit) :
    sink.front (p ++ q) = sink.front p ∧ sink.verdict (p ++ q) r = .error (.stream .noRoom) := by
  have hadd := sink.room_add p.length q.length
  have hall : sink.room (p.length + q.length) = sink.room p.length := by omega
  refine ⟨?_, if_pos (by rw [List.length_append]; omega)⟩
  rw [front, front, List.length_append, hall, List.take_append_of_le_length (by omega)]

theorem verdict_new (capacity : Nat) (piece : Option (Nat → Nat)) (p : List UInt8) (r : Except SerialError Unit) :
    ({ capacity := some capacity, piece } : Sink).verdict p r =
      if p.length ≤ capacity then r else .error (.stream .noRoom) := by
  have hroom : ({ capacity := some capacity, piece } : Sink).room p.length = min p.length capacity := by simp [room]
  rw [verdict, hroom]
  by_cases hfit : p.length ≤ capacity
  · rw [if_neg (by omega), if_pos hfit]
  · rw [if_pos (by omega), if_neg hfit]

theorem push_front_new (capacity : Nat) (piece : Option (Nat → Nat)) (p : List UInt8) :
    ({ capacity := some capacity, piece } : Sink).push (front { capacity := some capacity, piece } p) =
      { bytes := (p.take capacity).toArray, written := min capacity p.length, capacity := some capacity, piece } := by
  have hfront : front { capacity := some capacity, piece } p = p.take capacity := by
    simp [front, room, List.take_eq_take_iff, Nat.min_comm]
  rw [hfront]
  simp [push]

end Wire.Sink

namespace Store

open SaveM

/-- With `d` levels open, the bytes `p` are written and the end is `r`, up to the room of the sink: if there is no room
for all of `p`, then the sink is filled with the front of `p` and the end is the refusal of the rest. -/
def Produces (x : SaveM Unit) (d : Nat) (p : List UInt8) (r : Except SerialError Unit) : Prop :=
  ∀ sink : Sink, x ⟨sink, d⟩ = ended (sink.verdict p r) ⟨sink.push (sink.front p), d⟩

/-- With `d` levels open, what is written and how it ends depends on the sink only by its room. -/
def Determined (x : SaveM Unit) (d : Nat) : Prop :=
  ∃ p r, Produces x d p r

variable {s : Store} {x y : SaveM Unit} {value : Value → SaveM Unit} {d : Nat} {p q : List UInt8}
  {r : Except SerialError Unit} {e : SerialError}

/-! ## One write after another -/

/-- What ends without writing. -/
theorem produces_ended (r : Except SerialError Unit) (d : Nat) : Produces (ended r) d [] r := by
  intro sink
  simp [Sink.front, Sink.verdict]

theorem produces_item {i : Item} (h : i.Fits) (d : Nat) : Produces (item i) d i.bytes (.ok ()) := by
  intro sink
  simp only [item, lift, Item.write_eq_bytes h, Sink.write_run, Sink.verdict]
  by_cases hroom : sink.room i.bytes.length < i.bytes.length
  · simp only [hroom, if_true, Sink.front, ended]
  · simp only [hroom, if_false, Sink.front_of_fits hroom, ended]

/-- What is written after a writer that does not fail has the rest of the room. -/
theorem produces_bind (hx : Produces x d p (.ok ())) (hy : Produces y d q r) : Produces (do x; y) d (p ++ q) r := by
  intro sink
  rw [run_bind, hx sink]
  by_cases hp : sink.room p.length < p.length
  · obtain ⟨hfront, hverdict⟩ := Sink.cut_append hp q r
    rw [hfront, hverdict, Sink.verdict, if_pos hp]
    rfl
  · rw [Sink.front_append hp, Sink.verdict_append hp, ← push_push, Sink.front_of_fits hp, Sink.verdict, if_neg hp]
    exact hy (sink.push p)

theorem produces_bind_error (hx : Produces x d p (.error e)) : Produces (do x; y) d p (.error e) := by
  intro sink
  rw [run_bind, hx sink, Sink.verdict]
  by_cases hp : sink.room p.length < p.length
  · rw [if_pos hp]
    rfl
  · rw [if_neg hp]
    rfl

theorem produces_level (hd : d < maxNesting) (hx : Produces x (d + 1) p r) : Produces (level x) d p r := by
  intro sink
  simp only [level, if_neg (Nat.not_le.mpr hd), hx sink]
  cases sink.verdict p r <;> rfl

/-! ## Every writer is determined -/

theorem determined_throw (e : SerialError) (d : Nat) : Determined (throw e) d :=
  ⟨[], .error e, produces_ended (.error e) d⟩

theorem determined_item (i : Item) (d : Nat) : Determined (item i) d := by
  by_cases h : i.Fits
  · exact ⟨_, _, produces_item h d⟩
  · cases i with
    | text t =>
      have hlong : (Item.text t).write = throw (.invalid .textTooLong none) := if_neg h
      have hthrow : item (.text t) = throw (.invalid .textTooLong none) := by
        rw [item, hlong]
        rfl
      exact hthrow ▸ determined_throw _ d
    | _ => exact absurd trivial h

theorem Determined.bind (hx : Determined x d) (hy : Determined y d) : Determined (do x; y) d := by
  obtain ⟨p, r, hx⟩ := hx
  obtain ⟨q, r', hy⟩ := hy
  cases r with
  | ok => exact ⟨_, _, produces_bind hx hy⟩
  | error e => exact ⟨_, _, produces_bind_error hx⟩

theorem Determined.level (hx : Determined x (d + 1)) : Determined (level x) d := by
  by_cases hd : d < maxNesting
  · obtain ⟨p, r, hx⟩ := hx
    exact ⟨p, r, produces_level hd hx⟩
  · -- the level is refused before anything is written
    refine ⟨[], .error (.tooDeep maxNesting), fun sink => ?_⟩
    simp [NestedM.level, Nat.not_lt.mp hd, Sink.front, Sink.verdict, ended]

theorem determined_writeTail (hv : ∀ v, Determined (value v) d) (l : List CellId) :
    Determined (s.writeTail value l) d := by
  induction l with
  | nil => exact determined_item _ d
  | cons c l ih => exact (determined_item _ d).bind (((determined_item _ d).bind (hv _)).bind ih)

theorem determined_writeFields (hv : ∀ v, Determined (value v) d) (l : List Field) :
    Determined (writeFields value l) d := by
  induction l with
  | nil => exact ⟨[], .ok (), produces_ended (.ok ()) d⟩
  | cons f l ih =>
    cases f with
    | item i => exact (determined_item i d).bind ih
    | value v => exact (hv v).bind ih

theorem determined_writeStateWith (hv : ∀ v, Determined (value v) d) (q : Ref) :
    Determined (s.writeStateWith value q) d := by
  unfold writeStateWith
  split
  · split
    · exact determined_throw _ d
    · exact ((determined_item _ d).bind (hv _)).bind (determined_writeTail hv _)
  · split
    · exact determined_item _ d
    · exact determined_throw _ d
    · split
      · exact determined_writeFields hv _
      · exact determined_throw _ d

theorem determined_writeValue (s : Store) (n : Nat) (v : Value) (d : Nat) : Determined (s.writeValue n v) d := by
  induction n generalizing v d with
  | zero => exact determined_throw _ d
  | succ n ih =>
    cases v with
    | none => exact (determined_item _ _).level
    | some q =>
      refine Determined.level ?_
      unfold writeObject
      split
      · exact determined_throw _ _
      · exact (determined_item _ _).bind (determined_writeStateWith (fun v => ih v _) q)

end Store

/-! ## Sinks of limited room -/

namespace Thread

open Store

theorem save_ended {x : Store → SaveM Unit} {sink sink' : Sink} {t : Thread} {r : Except SerialError Unit}
    (h : x t.store ⟨sink, t.writing⟩ = ended r ⟨sink', t.writing⟩) : save x sink t = (ended r sink', t) := by
  unfold save
  rw [h]
  cases r <;> rfl

/-- A value is written to a sink of limited room as to an unlimited one that is cut off: the sink gets the first
bytes of those that the unlimited one gets, as many as there is room for, and it counts them. If all of them fit, then
the result is that of the unlimited sink, success or failure; else it is that there is no room. It makes no difference
how many bytes the sink takes at a time, and the thread is left as it was. -/
theorem serialize_within_capacity (t : Thread) (v : Value) :
    ∃ (p : List UInt8) (r : Except SerialError Unit),
      serialize v {} t = (ended r { bytes := p.toArray, written := p.length }, t) ∧
      (∀ capacity piece, serialize v { capacity := some capacity, piece } t =
        (ended (if p.length ≤ capacity then r else .error (.stream .noRoom))
          { bytes := (p.take capacity).toArray, written := min capacity p.length, capacity := some capacity, piece },
          t)) ∧
      (SerialError.stream .noRoom).message = "serial-error: failed to write whole buffer" := by
  obtain ⟨p, r, hp⟩ := determined_writeValue t.store maxNesting v t.writing
  refine ⟨p, r, save_ended ?_, fun capacity piece => save_ended ?_, rfl⟩
  · rw [Store.serialize, hp]
    simp [Sink.verdict, Sink.front, Sink.room, Sink.push]
  · rw [Store.serialize, hp, Sink.verdict_new, Sink.push_front_new]

end Thread

end ScriptCore
