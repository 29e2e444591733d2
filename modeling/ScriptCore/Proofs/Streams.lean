import ScriptCore.Proofs.Relocation

/-!
# Kinds of streams make no difference

A thread reads items and values from a stream, one after another, and goes on after failures. What it gets does not
depend on what the stream is made of and in what pieces it delivers; a stream that knows its position names it in
errors, and is always behind as many bytes as it has delivered (`readAll_on_any_device`). The sources that stand for
the kinds of streams give what the devices of these kinds give (`readAll_ofBytes`).
-/
namespace ScriptCore

open Wire LoadM

namespace Thread

/-- What is read next. -/
inductive Wanted where
  | item (shape : Shape)
  | value
  deriving DecidableEq, Repr

/-- What was read. -/
inductive Received where
  | item (i : Item)
  | value (v : Value)
  deriving DecidableEq, Repr

/-- What can be seen of a read: how it ended, the position of the stream behind it, and how many bytes are left. -/
structure Report where
  outcome : Except SerialError Received
  position : Option Nat
  left : Nat
  deriving DecidableEq, Repr

variable {σ τ : Type} [InputStream σ] [InputStream τ]

/-- Reads what is wanted. -/
def receive (r : Registry) : Wanted → LoadingM σ Received
  | .item shape => return .item (← onSource shape.read)
  | .value => return .value (← r.deserialize)

/-- The report on a read. -/
def report : EStateM.Result SerialError σ Received → Report
  | .ok a s => ⟨.ok a, InputStream.offset s, InputStream.remaining s⟩
  | .error e s => ⟨.error e, InputStream.offset s, InputStream.remaining s⟩

/-- Reads what is wanted, one after another, from wherever the last read has left the stream. -/
def readAll (r : Registry) : List Wanted → σ → ThreadM (List Report × σ)
  | [], s => return ([], s)
  | w :: wanted, s => do
    let result ← load (receive r w) s
    let (reports, s) ← readAll r wanted (after result)
    return (report result :: reports, s)

/-- A report as it is with other positions. -/
def Report.relocate (f : Option Nat → Option Nat) (q : Report) : Report :=
  { q with outcome := q.outcome.mapError (·.relocate f), position := f q.position }

/-- A report without positions. -/
def Report.plain (q : Report) : Report :=
  q.relocate fun _ => none

theorem Report.relocate_id (q : Report) : q.relocate id = q := by
  obtain ⟨_ | _, position, left⟩ := q <;> simp [relocate, Except.mapError, SerialError.relocate_id]

theorem map_relocate_id (l : List Report) : l.map (Report.relocate id) = l := by
  rw [List.map_congr_left fun q _ => q.relocate_id, List.map_id']

theorem Report.plain_relocate (f : Option Nat → Option Nat) (q : Report) : (q.relocate f).plain = q.plain := by
  obtain ⟨_ | _, position, left⟩ := q <;>
    simp [plain, relocate, Except.mapError, SerialError.relocate_relocate, Function.comp_def]

theorem Report.offset?_plain {q : Report} {e : SerialError} (h : q.plain.outcome = .error e) : e.offset? = none := by
  obtain ⟨_ | _, position, left⟩ := q
  · cases h
    exact SerialError.offset?_relocate rfl _
  · cases h

/-! ## Step and run -/

variable {f : Option Nat → Option Nat} {R : σ → τ → Prop}

theorem follows_receive (h : Tracks f R) (r : Registry) (w : Wanted) :
    Follows f (Abreast R) (receive r w : LoadingM σ Received) (receive r w) := by
  cases w with
  | item shape => exact follows_bind (follows_onSource (h.read shape)) fun _ => follows_pure _
  | value => exact follows_bind (follows_readValue h r maxNesting) fun _ => follows_pure _

theorem report_matches (h : Tracks f R) {x : EStateM.Result SerialError σ Received}
    {y : EStateM.Result SerialError τ Received} (hxy : Matches f R x y) :
    report y = (report x).relocate f := by
  cases hxy with
  | ok states => simp [report, Report.relocate, h.offset states, h.remaining states, Except.mapError]
  | error states => simp [report, Report.relocate, h.offset states, h.remaining states, Except.mapError]

theorem report_after (x : EStateM.Result SerialError σ Received) :
    (report x).position = InputStream.offset (after x) ∧ (report x).left = InputStream.remaining (after x) := by
  cases x <;> exact ⟨rfl, rfl⟩

theorem readAll_cons (r : Registry) (w : Wanted) (wanted : List Wanted) (s : σ) (t : Thread) :
    readAll r (w :: wanted) s t =
      let call := load (receive r w) s t
      let more := readAll r wanted (after call.1) call.2
      ((report call.1 :: more.1.1, more.1.2), more.2) := rfl

/-- Two runs on streams that are related: the reports are the same but for positions, the thread is left in the same
state, and every report is on streams that are related. -/
theorem readAll_tracks (h : Tracks f R) (r : Registry) (wanted : List Wanted) {s : σ} {s' : τ} (hs : R s s')
    (t : Thread) :
    (readAll r wanted s' t).1.1 = (readAll r wanted s t).1.1.map (Report.relocate f) ∧
    (readAll r wanted s' t).2 = (readAll r wanted s t).2 ∧
    R (readAll r wanted s t).1.2 (readAll r wanted s' t).1.2 ∧
    ∀ q ∈ (readAll r wanted s t).1.1, ∃ p p', R p p' ∧ q.position = InputStream.offset p ∧
      q.left = InputStream.remaining p := by
  induction wanted generalizing s s' t with
  | nil => exact ⟨rfl, rfl, hs, fun q hq => by cases hq⟩
  | cons w wanted ih =>
    obtain ⟨hcall, hthread⟩ := load_matches (follows_receive h r w) hs t
    have hreport := report_matches h hcall
    obtain ⟨hreports, hthreads, hends, hseen⟩ := ih hcall.after (load (receive r w) s t).2
    simp only [readAll_cons, hthread]
    refine ⟨?_, hthreads, hends, ?_⟩
    · rw [List.map_cons, hreport, hreports]
    · intro q hq
      rcases List.mem_cons.mp hq with rfl | hq
      · exact ⟨_, _, hcall.after, report_after _⟩
      · exact hseen q hq

end Thread

/-! ## Devices over the same bytes -/

namespace Wire

/-- The device is new: all of `bytes` are still to come, and if the device knows its position, that is zero. -/
structure Device.Begins (d : Device) (bytes : List UInt8) : Prop where
  rest : d.rest = bytes
  lasts : d.breaks = false
  start : d.position = none ∨ d.position = some 0

end Wire

namespace Thread

/-- A source stands for the device of its kind. -/
theorem readAll_ofBytes (r : Registry) (wanted : List Wanted) (t : Thread) (kind : StreamKind) (bytes : List UInt8) :
    (readAll r wanted (Source.ofBytes kind bytes) t).1.1 = (readAll r wanted (Device.ofBytes kind bytes) t).1.1 ∧
    (readAll r wanted (Source.ofBytes kind bytes) t).2 = (readAll r wanted (Device.ofBytes kind bytes) t).2 := by
  have hbeside : Besides id ((Source.ofBytes kind bytes).offset.map fun _ => bytes.length)
      (.ofBytes kind bytes) (.ofBytes kind bytes) := by
    refine ⟨by cases kind <;> rfl, by cases kind <;> rfl, by cases kind <;> rfl, ?_, ?_⟩
    · cases kind <;> simp [Source.ofBytes, Source.offset]
    · cases kind <;> simp [Source.ofBytes, Source.offset]
  obtain ⟨hreports, hthread, -⟩ := readAll_tracks (tracks_besides movesAlong_id _) r wanted hbeside t
  rw [hreports, hthread, map_relocate_id]
  exact ⟨rfl, rfl⟩

/-- What a device is read like, if it begins with `bytes` and reports positions as `f` says. -/
theorem readAll_begins {f : Option Nat → Option Nat} (hf : MovesAlong f) (r : Registry) (wanted : List Wanted)
    (t : Thread) {bytes : List UInt8} {d : Device} (hd : d.Begins bytes) (hp : d.position = f (some 0)) :
    let run := readAll r wanted d t
    let reference := readAll r wanted (Source.ofBytes .cursor bytes) t
    run.1.1 = reference.1.1.map (Report.relocate f) ∧ run.2 = reference.2 ∧ run.1.2.rest = reference.1.2.rest ∧
    ∀ q ∈ reference.1.1, q.left ≤ bytes.length ∧ q.position = some (bytes.length - q.left) := by
  have hbeside : Besides f (some bytes.length) (.ofBytes .cursor bytes) d :=
    ⟨hd.rest, hd.lasts, hp, by simp [Source.ofBytes, Source.offset], by simp [Source.ofBytes]⟩
  obtain ⟨hreports, hthread, hends, hseen⟩ := readAll_tracks (tracks_besides hf _) r wanted hbeside t
  refine ⟨hreports, hthread, hends.rest, fun q hq => ?_⟩
  obtain ⟨p, p', hpp, hposition, hleft⟩ := hseen q hq
  rw [hposition, hleft]
  exact ⟨hpp.le _ rfl, hpp.count⟩

/-- A new device reports positions as they are, or not at all. -/
theorem exists_view {bytes : List UInt8} {d : Device} (hd : d.Begins bytes) :
    ∃ f, MovesAlong f ∧ d.position = f (some 0) ∧ (d.position = some 0 → f = id) ∧
      (d.position = none → f = fun _ => none) := by
  rcases hd.start with hp | hp
  · exact ⟨_, movesAlong_unknown, hp, fun h => (by rw [hp] at h; cases h), fun _ => rfl⟩
  · exact ⟨id, movesAlong_id, hp, fun _ => rfl, fun h => (by rw [hp] at h; cases h)⟩

/-- Reading from a new device gives what reading from bytes in memory gives: the same items and values, the same
errors but for positions, with the same bytes used up, and the thread ends with the same objects. If the device knows
its position, it also reports the same positions, and these are the numbers of bytes used up; if it does not, it
reports none. The position is the last part of the message of an error. -/
theorem readAll_on_any_device (r : Registry) (wanted : List Wanted) (t : Thread) {bytes : List UInt8} {d : Device}
    (hd : d.Begins bytes) :
    let run := readAll r wanted d t
    let reference := readAll r wanted (Device.cursor bytes 0) t
    (run.1.1.map Report.plain = reference.1.1.map Report.plain ∧ run.1.2.rest = reference.1.2.rest ∧
      run.2 = reference.2) ∧
    (d.position = some 0 → run.1.1 = reference.1.1) ∧
    (d.position = none → run.1.1 = reference.1.1.map Report.plain) ∧
    ∀ q ∈ run.1.1, q.left ≤ bytes.length ∧
      (d.position = some 0 → q.position = some (bytes.length - q.left)) ∧
      (d.position = none → q.position = none ∧ ∀ e, q.outcome = .error e → e.offset? = none) ∧
      ∀ e, q.outcome = .error e → e.message = (e.relocate fun _ => none).message ++ offsetText e.offset? := by
  have hcursor : (Device.cursor bytes 0).Begins bytes := ⟨rfl, rfl, .inr rfl⟩
  obtain ⟨hreference, hthread, hrest, hcount⟩ := readAll_begins movesAlong_id r wanted t hcursor rfl
  rw [map_relocate_id] at hreference
  rw [← hreference] at hcount
  obtain ⟨f, hf, hp, hknown, hunknown⟩ := exists_view hd
  obtain ⟨hrun, hthread', hrest', -⟩ := readAll_begins hf r wanted t hd hp
  rw [← hreference] at hrun
  intro run reference
  refine ⟨⟨?_, hrest'.trans hrest.symm, hthread'.trans hthread.symm⟩, fun h => ?_, fun h => ?_, fun q hq => ?_⟩
  · rw [hrun, List.map_map]
    exact List.map_congr_left fun q _ => q.plain_relocate f
  · rw [hrun, hknown h, map_relocate_id]
  · rw [hrun, hunknown h]
    rfl
  · rw [hrun] at hq
    obtain ⟨q, hmem, rfl⟩ := List.mem_map.mp hq
    obtain ⟨hle, hposition⟩ := hcount q hmem
    refine ⟨hle, fun h => ?_, fun h => ⟨?_, fun e he => ?_⟩, fun e _ => e.message_eq⟩
    · rw [hknown h, q.relocate_id, hposition]
    · rw [hunknown h]
      rfl
    · rw [hunknown h] at he
      exact Report.offset?_plain he

/-- A truth value that is none, a text cut short, and a byte where there is none, read through a counter and a small
buffer from pieces of one, two and more bytes, and read from a slice. -/
theorem readAll_on_any_device_scattered :
    let bytes : List UInt8 := [0, 1, 0, 2, 3, 0, 0, 0, 2, 65]
    let wanted : List Wanted := [.value, .item .text, .item .u8]
    let d : Device := .tracked 0 (.buffered 3 [] (.pieces id false bytes))
    d.Begins bytes ∧ (Device.slice bytes).Begins bytes ∧
    (readAll .core wanted d {}).1.1 =
      [⟨.error (.invalid (.boolean 3) (some 4)), some 5, 5⟩, ⟨.error (.invalid (.textCut 2 1) (some 9)), some 10, 0⟩,
        ⟨.error (.stream .endOfInput), some 10, 0⟩] ∧
    (readAll .core wanted (Device.slice bytes) {}).1.1 =
      [⟨.error (.invalid (.boolean 3) none), none, 5⟩, ⟨.error (.invalid (.textCut 2 1) none), none, 0⟩,
        ⟨.error (.stream .endOfInput), none, 0⟩] := by
  intro bytes wanted d
  have hd : d.Begins bytes := ⟨rfl, rfl, .inr rfl⟩
  have hslice : (Device.slice bytes).Begins bytes := ⟨rfl, rfl, .inl rfl⟩
  refine ⟨hd, hslice, ?_, ?_⟩
  · rw [(readAll_on_any_device .core wanted {} hd).2.1 rfl]
    decide
  · rw [(readAll_on_any_device .core wanted {} hslice).2.2.1 rfl]
    decide

end Thread

end ScriptCore
