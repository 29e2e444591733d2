import ScriptCore.Proofs.Devices
import ScriptCore.Proofs.Wire
import ScriptCore.Serial.Thread

/-!
# Reading from two streams alike

Everything that is read is read through a stream's `upTo`, and a stream's position goes nowhere but into errors. So two
streams that deliver the same bytes and whose positions are in a fixed relation are read alike: with the same results,
with the same objects made, and with errors that differ in the position they name (`follows_readValue`).

`f` says how the second stream would report a position of the first one: the same, another one, or not at all.
`Tracks f R` says of a relation `R` between the states of two streams that reading keeps it, and `Follows f R` compares
two actions on them. `tracks_besides` is the case of a source and a device.
-/
namespace ScriptCore

open Wire

/-! ## Errors and positions -/

namespace SerialError

/-- The error as it is with another position. -/
def relocate (f : Option Nat → Option Nat) : SerialError → SerialError
  | .unknownFamily family offset => .unknownFamily family (f offset)
  | .unknownMember header offset => .unknownMember header (f offset)
  | .mismatch header found typeName offset => .mismatch header found typeName (f offset)
  | .invalid problem offset => .invalid problem (f offset)
  | .notSerializable typeName => .notSerializable typeName
  | .alreadyRegistered family => .alreadyRegistered family
  | .reserved family => .reserved family
  | .tooDeep limit => .tooDeep limit
  | .stream problem => .stream problem

/-- The position that the error names. -/
def offset? : SerialError → Option Nat
  | .unknownFamily _ offset | .unknownMember _ offset | .mismatch _ _ _ offset | .invalid _ offset => offset
  | _ => none

theorem relocate_id (e : SerialError) : e.relocate id = e := by
  cases e <;> rfl

theorem relocate_relocate (f g : Option Nat → Option Nat) (e : SerialError) :
    (e.relocate f).relocate g = e.relocate (g ∘ f) := by
  cases e <;> rfl

theorem offset?_relocate {f : Option Nat → Option Nat} (hf : f none = none) (e : SerialError) :
    (e.relocate f).offset? = f e.offset? := by
  cases e <;> first | rfl | exact hf.symm

/-- The position stands at the end of a message and nowhere else. -/
theorem message_eq (e : SerialError) :
    e.message = (e.relocate fun _ => none).message ++ offsetText e.offset? := by
  have hnone : offsetText none = "" := rfl
  unfold message
  rw [String.append_assoc]
  congr 1
  cases e <;> simp only [relocate, offset?, hnone, String.append_empty]

end SerialError

/-! ## Two actions -/

section Follow

variable {σ τ α β : Type} {f : Option Nat → Option Nat} {R : σ → τ → Prop}

/-- The same result, or the same error but for its position, in states that are related. -/
inductive Matches (f : Option Nat → Option Nat) (R : σ → τ → Prop) :
    EStateM.Result SerialError σ α → EStateM.Result SerialError τ α → Prop
  | ok {a : α} {s : σ} {t : τ} (states : R s t) : Matches f R (.ok a s) (.ok a t)
  | error {e : SerialError} {s : σ} {t : τ} (states : R s t) : Matches f R (.error e s) (.error (e.relocate f) t)

theorem Matches.after {x : EStateM.Result SerialError σ α} {y : EStateM.Result SerialError τ α} (h : Matches f R x y) :
    R (ScriptCore.after x) (ScriptCore.after y) := by
  cases h with
  | ok states => exact states
  | error states => exact states

/-- From related states the two actions end alike. -/
def Follows (f : Option Nat → Option Nat) (R : σ → τ → Prop) (x : EStateM SerialError σ α)
    (y : EStateM SerialError τ α) : Prop :=
  ∀ s t, R s t → Matches f R (x s) (y t)

theorem follows_pure (a : α) : Follows f R (pure a) (pure a) := fun _ _ h => .ok h

theorem follows_throw (e : SerialError) : Follows (α := α) f R (throw e) (throw (e.relocate f)) :=
  fun _ _ h => .error h

theorem follows_throw_bind (e : SerialError) (k : α → EStateM SerialError σ β) (k' : α → EStateM SerialError τ β) :
    Follows f R (throw e >>= k) (throw (e.relocate f) >>= k') :=
  fun _ _ h => .error h

theorem follows_bind {x : EStateM SerialError σ α} {y : EStateM SerialError τ α} {k : α → EStateM SerialError σ β}
    {k' : α → EStateM SerialError τ β} (hx : Follows f R x y) (hk : ∀ a, Follows f R (k a) (k' a)) :
    Follows f R (x >>= k) (y >>= k') := by
  intro s t h
  have hr := hx s t h
  rw [run_bind, run_bind]
  generalize x s = rx at hr
  generalize y t = ry at hr
  cases hr with
  | ok h => exact hk _ _ _ h
  | error h => exact .error h

theorem Follows.ok {x : EStateM SerialError σ α} {y : EStateM SerialError τ α} (h : Follows id R x y) {s s' : σ} {t : τ}
    {a : α} (hs : R s t) (hx : x s = .ok a s') : ∃ t', y t = .ok a t' ∧ R s' t' := by
  have hmatch := h s t hs
  rw [hx] at hmatch
  generalize y t = run at hmatch
  cases hmatch with
  | ok states => exact ⟨_, rfl, states⟩

theorem Follows.error {x : EStateM SerialError σ α} {y : EStateM SerialError τ α} (h : Follows id R x y) {s s' : σ}
    {t : τ} {e : SerialError} (hs : R s t) (hx : x s = .error e s') : ∃ t', y t = .error e t' ∧ R s' t' := by
  have hmatch := h s t hs
  rw [hx] at hmatch
  generalize y t = run at hmatch
  cases hmatch with
  | error states => exact ⟨_, by rw [SerialError.relocate_id], states⟩

/-- Where the second action succeeds, so does the first. -/
theorem Follows.of_ok {x : EStateM SerialError σ α} {y : EStateM SerialError τ α} (h : Follows f R x y) {s : σ} {t t' : τ}
    {a : α} (hs : R s t) (hy : y t = .ok a t') : ∃ s', x s = .ok a s' ∧ R s' t' := by
  have hmatch := h s t hs
  rw [hy] at hmatch
  generalize x s = run at hmatch
  cases hmatch with
  | ok states => exact ⟨_, rfl, states⟩

end Follow

/-! ## Readers -/

namespace Wire

variable {σ τ α : Type} [InputStream σ] [InputStream τ] {f : Option Nat → Option Nat} {R : σ → τ → Prop}

/-- Reading keeps the relation between two streams, and brings the same from both. -/
structure Tracks (f : Option Nat → Option Nat) (R : σ → τ → Prop) : Prop where
  unknown : f none = none
  offset : ∀ {s t}, R s t → InputStream.offset t = f (InputStream.offset s)
  remaining : ∀ {s t}, R s t → InputStream.remaining t = InputStream.remaining s
  upTo : ∀ n, Follows f R (InputStream.upTo n : StreamM σ (List UInt8)) (InputStream.upTo n)

namespace Tracks

variable (h : Tracks f R)

include h

/-- What is done with a position, which is another one on the second stream. -/
theorem offset_bind {k : Option Nat → StreamM σ α} {k' : Option Nat → StreamM τ α}
    (hk : ∀ o, Follows f R (k o) (k' (f o))) :
    Follows f R (Wire.offset >>= k) (Wire.offset >>= k') := by
  intro s t hst
  show Matches f R (k (InputStream.offset s) s) (k' (InputStream.offset t) t)
  rw [h.offset hst]
  exact hk _ s t hst

theorem exactly (n : Nat) : Follows f R (InputStream.exactly n : StreamM σ (List UInt8)) (InputStream.exactly n) := by
  refine follows_bind (h.upTo n) fun bytes => ?_
  split
  · exact follows_throw _
  · exact follows_pure _

theorem number (w : Nat) (ofNat : Nat → α) :
    Follows f R (do return ofNat (ofBigEndian (← InputStream.exactly w)) : StreamM σ α)
      (do return ofNat (ofBigEndian (← InputStream.exactly w))) :=
  follows_bind (h.exactly w) fun _ => follows_pure _

theorem readU8 : Follows f R (Wire.readU8 : StreamM σ UInt8) Wire.readU8 := h.number 1 _

theorem readU16 : Follows f R (Wire.readU16 : StreamM σ UInt16) Wire.readU16 := h.number 2 _

theorem readU32 : Follows f R (Wire.readU32 : StreamM σ UInt32) Wire.readU32 := h.number 4 _

theorem readI64 : Follows f R (Wire.readI64 : StreamM σ Int64) Wire.readI64 :=
  h.number 8 fun n => (UInt64.ofNat n).toInt64

theorem readBool : Follows f R (Wire.readBool : StreamM σ Bool) Wire.readBool := by
  refine h.offset_bind fun start => follows_bind h.readU8 fun byte => ?_
  split
  · exact follows_pure _
  · exact follows_pure _
  · exact follows_throw _

theorem readText : Follows f R (Wire.readText : StreamM σ String) Wire.readText := by
  refine follows_bind h.readU32 fun length => h.offset_bind fun start => follows_bind (h.upTo _) fun bytes => ?_
  by_cases hlen : bytes.length = length.toNat
  · simp only [hlen, ne_eq, not_true_eq_false, if_false]
    split
    · exact follows_pure _
    · exact follows_throw _
  · simp only [hlen, ne_eq, not_false_eq_true, if_true]
    exact follows_throw_bind _ _ _

theorem readHeader : Follows f R (Wire.readHeader : StreamM σ Header) Wire.readHeader :=
  follows_bind h.readU16 fun _ => follows_bind h.readU16 fun _ => follows_pure _

theorem read (shape : Shape) : Follows f R (shape.read : StreamM σ Item) shape.read := by
  cases shape with
  | u8 => exact follows_bind h.readU8 fun _ => follows_pure _
  | u16 => exact follows_bind h.readU16 fun _ => follows_pure _
  | u32 => exact follows_bind h.readU32 fun _ => follows_pure _
  | i64 => exact follows_bind h.readI64 fun _ => follows_pure _
  | bool => exact follows_bind h.readBool fun _ => follows_pure _
  | text => exact follows_bind h.readText fun _ => follows_pure _
  | header => exact follows_bind h.readHeader fun _ => follows_pure _

theorem readLike (x : Datum) : Follows f R (x.readLike : StreamM σ Datum) x.readLike := by
  cases x with
  | integer n => exact follows_bind h.readI64 fun _ => follows_pure _
  | boolean b => exact follows_bind h.readBool fun _ => follows_pure _
  | text s => exact follows_bind h.readText fun _ => follows_pure _
  | symbol name => exact follows_bind h.readText fun _ => follows_pure _

end Tracks

end Wire

/-! ## Values -/

section Values

open LoadM NestedM

variable {σ τ α β : Type} {f : Option Nat → Option Nat} {R : σ → τ → Prop}

/-- The same objects, the same levels open, and streams that are related. -/
structure Abreast (R : σ → τ → Prop) (m : Nested (Loading σ)) (m' : Nested (Loading τ)) : Prop where
  store : m'.state.store = m.state.store
  source : R m.state.source m'.state.source
  depth : m'.depth = m.depth

theorem follows_onSource {x : StreamM σ α} {y : StreamM τ α} (hx : Follows f R x y) :
    Follows f (Abreast R) (onSource x) (onSource y) := by
  intro m m' h
  have hr := hx _ _ h.source
  simp only [onSource, lift]
  generalize x m.state.source = rx at hr
  generalize y m'.state.source = ry at hr
  cases hr with
  | ok states => exact .ok ⟨h.store, states, h.depth⟩
  | error states => exact .error ⟨h.store, states, h.depth⟩

theorem follows_onStore (g : Store → α × Store) :
    Follows f (Abreast R) (onStore g : LoadingM σ α) (onStore g : LoadingM τ α) := by
  intro m m' h
  show Matches f (Abreast R) (.ok (g m.state.store).1 _) (.ok (g m'.state.store).1 _)
  rw [h.store]
  exact .ok ⟨rfl, h.source, h.depth⟩

theorem follows_change (g : Store → Store) :
    Follows f (Abreast R) (change g : LoadingM σ Unit) (change g : LoadingM τ Unit) :=
  follows_onStore _

/-- A look at the objects and at how much is still to come. -/
theorem follows_look {g : Store → α} {k : α → LoadingM σ β} {k' : α → LoadingM τ β}
    (hk : ∀ a, Follows f (Abreast R) (k a) (k' a)) :
    Follows f (Abreast R) (do k (g (← get).state.store)) (do k' (g (← get).state.store)) := by
  intro m m' h
  show Matches f (Abreast R) (k (g m.state.store) m) (k' (g m'.state.store) m')
  rw [h.store]
  exact hk _ m m' h

theorem follows_level {x : LoadingM σ α} {y : LoadingM τ α} (hx : Follows f (Abreast R) x y) :
    Follows f (Abreast R) (level x) (level y) := by
  intro m m' h
  simp only [level, h.depth]
  split
  · exact .error h
  have hr := hx { m with depth := m.depth + 1 } { m' with depth := m'.depth + 1 }
    ⟨h.store, h.source, congrArg (· + 1) h.depth⟩
  rw [h.depth] at hr
  generalize x { m with depth := m.depth + 1 } = rx at hr
  generalize y { m' with depth := m.depth + 1 } = ry at hr
  cases hr with
  | ok states => exact .ok ⟨states.store, states.source, congrArg (· - 1) states.depth⟩
  | error states => exact .error ⟨states.store, states.source, congrArg (· - 1) states.depth⟩

theorem follows_attempt {x : LoadingM σ α} {y : LoadingM τ α} (hx : Follows f (Abreast R) x y) :
    Follows f (Abreast R) (attempt x) (attempt y) := by
  intro m m' h
  have hr := hx m m' h
  simp only [attempt]
  generalize x m = rx at hr
  generalize y m' = ry at hr
  cases hr with
  | ok states => exact .ok states
  | error states => exact .ok states

variable [InputStream σ] [InputStream τ] (h : Tracks f R)

include h

theorem offset_bind {k : Option Nat → LoadingM σ α} {k' : Option Nat → LoadingM τ α}
    (hk : ∀ o, Follows f (Abreast R) (k o) (k' (f o))) :
    Follows f (Abreast R) (onSource offset >>= k) (onSource offset >>= k') := by
  intro m m' hm
  show Matches f (Abreast R) (k (InputStream.offset m.state.source) m) (k' (InputStream.offset m'.state.source) m')
  rw [h.offset hm.source]
  exact hk _ m m' hm

variable {value : LoadingM σ Value} {value' : LoadingM τ Value} (hv : Follows f (Abreast R) value value')

include hv

theorem follows_readCell (c : CellId) : Follows f (Abreast R) (readCell value c) (readCell value' c) := by
  refine offset_bind h fun start => follows_bind (follows_onSource h.readU8) fun byte => ?_
  split
  · exact follows_throw _
  · exact follows_bind hv fun _ => follows_change _

theorem follows_readTail (c : CellId) (rounds : Nat) (last : Option CellId) :
    Follows f (Abreast R) (readTail value c rounds last) (readTail value' c rounds last) := by
  induction rounds generalizing last with
  | zero => exact follows_throw _
  | succ rounds ih =>
    refine offset_bind h fun start => follows_bind (follows_onSource h.readHeader) fun header => ?_
    split
    · split
      · exact follows_change _
      · exact follows_pure _
    split
    · refine follows_bind (follows_onStore _) fun new => follows_bind (follows_readCell h hv new) fun _ => ?_
      exact follows_bind (follows_change _) fun _ => ih _
    · exact follows_throw _

theorem follows_recipe (recipe : Recipe) : Follows f (Abreast R) (recipe.run value) (recipe.run value') := by
  induction recipe with
  | done fields => exact follows_pure _
  | refuse message =>
    have hthrow := follows_throw (α := List Field) (f := f) (R := Abreast R) (.invalid (.native message) none)
    rwa [SerialError.relocate, h.unknown] at hthrow
  | item shape next ih => exact follows_bind (follows_onSource (h.read shape)) ih
  | value next ih => exact follows_bind hv ih
  | view v next ih => exact follows_look (g := (·.view v)) ih
  | attempt first next ih ih' => exact follows_bind (follows_attempt ih) ih'

theorem follows_readStateWith (r : Ref) :
    Follows f (Abreast R) (readStateWith value r) (readStateWith value' r) := by
  cases r with
  | cell c =>
    refine follows_bind (follows_readCell h hv c) fun _ m m' hm => ?_
    show Matches f (Abreast R) (readTail value c (InputStream.remaining m.state.source + 1) none m)
      (readTail value' c (InputStream.remaining m'.state.source + 1) none m')
    rw [h.remaining hm.source]
    exact follows_readTail h hv c _ none m m' hm
  | atom a =>
    intro m m' hm
    simp only [readStateWith, run_bind, run_get, hm.store]
    cases m.state.store.atom a with
    | datum x => exact follows_bind (follows_onSource (h.readLike x)) (fun _ => follows_change _) m m' hm
    | builtin b => exact .error hm
    | host o =>
      cases hrecord : o.type.record with
      | none => simp only [hrecord]; exact .error hm
      | some record =>
        simp only [hrecord]
        exact follows_bind (follows_recipe h hv _) (fun _ => follows_change _) m m' hm

omit hv

omit [InputStream σ] [InputStream τ] h in
theorem relocate_prototype (r : Registry) (header : Header) (start : Option Nat) :
    r.prototype header (f start) = (r.prototype header start).mapError (·.relocate f) := by
  unfold Registry.prototype
  split
  · rfl
  split
  · rfl
  split
  · rfl
  split <;> rfl

omit [InputStream σ] [InputStream τ] h in
theorem follows_instantiate (r : Registry) (header : Header) (start : Option Nat) :
    Follows f (Abreast R) (r.instantiate header start : LoadingM σ Ref) (r.instantiate header (f start)) := by
  unfold Registry.instantiate
  rw [relocate_prototype]
  cases r.prototype header start with
  | error e => exact follows_throw e
  | ok p => exact follows_onStore _

/-- A value is read alike from both streams. -/
theorem follows_readValue (r : Registry) (n : Nat) :
    Follows f (Abreast R) (r.readValue n : LoadingM σ Value) (r.readValue n) := by
  induction n with
  | zero => exact follows_throw _
  | succ n ih =>
    refine follows_level (offset_bind h fun start => follows_bind (follows_onSource h.readHeader) fun header => ?_)
    split
    · exact follows_pure _
    · refine follows_bind (follows_instantiate r header start) fun ref => ?_
      exact follows_bind (follows_readStateWith h ih ref) fun _ => follows_pure _

end Values

/-! ## A thread's calls -/

/-- A call on two streams that are related ends alike and leaves the thread in the same state. -/
theorem Thread.load_matches {σ τ α : Type} {f : Option Nat → Option Nat} {R : σ → τ → Prop} {x : LoadingM σ α}
    {y : LoadingM τ α} (hx : Follows f (Abreast R) x y) {s : σ} {s' : τ} (h : R s s') (t : Thread) :
    Matches f R (load x s t).1 (load y s' t).1 ∧ (load y s' t).2 = (load x s t).2 := by
  have hr := hx ⟨⟨t.store, s⟩, t.reading⟩ ⟨⟨t.store, s'⟩, t.reading⟩ ⟨rfl, h, rfl⟩
  simp only [load]
  generalize x ⟨⟨t.store, s⟩, t.reading⟩ = rx at hr
  generalize y ⟨⟨t.store, s'⟩, t.reading⟩ = ry at hr
  cases hr with
  | ok states => exact ⟨.ok states.source, by simp only [states.store, states.depth]⟩
  | error states => exact ⟨.error states.source, by simp only [states.store, states.depth]⟩

/-! ## A source and a device -/

/-- Positions are reported in another way, which goes along when both streams are read from. -/
structure MovesAlong (f : Option Nat → Option Nat) : Prop where
  unknown : f none = none
  advance : ∀ o n, f (o.map (· + n)) = (f o).map (· + n)

theorem movesAlong_id : MovesAlong id := ⟨rfl, fun _ _ => rfl⟩

theorem movesAlong_unknown : MovesAlong fun _ => none := ⟨rfl, fun _ _ => rfl⟩

theorem movesAlong_add (k : Nat) : MovesAlong (Option.map (k + ·)) := by
  refine ⟨rfl, fun o n => ?_⟩
  rw [Option.map_map, Option.map_map]
  congr 1
  funext p
  simp only [Function.comp]
  omega

namespace Wire

/-- The device delivers what the source does, and reports its positions as `f` says. If the source knows its position,
that is the number of bytes that are missing of `total`. -/
structure Besides (f : Option Nat → Option Nat) (total : Option Nat) (s : Source) (d : Device) : Prop where
  rest : d.rest = s.rest
  breaks : d.breaks = s.breaks
  offset : d.position = f s.offset
  count : s.offset = total.map (· - s.rest.length)
  le : ∀ n ∈ total, s.rest.length ≤ n

theorem Besides.advance {f : Option Nat → Option Nat} (hf : MovesAlong f) {total : Option Nat} {s : Source}
    {d d' : Device} {n : Nat} (h : Besides f total s d) (hd : d.Advances n d') :
    Besides f total (s.advance (min n s.rest.length)) d' := by
  have hrest : (s.advance (min n s.rest.length)).rest.length = s.rest.length - min n s.rest.length :=
    List.length_drop
  refine ⟨?_, hd.breaks.trans h.breaks, ?_, ?_, fun k hk => ?_⟩
  · rw [hd.rest, h.rest, Source.advance]
    rcases Nat.le_total n s.rest.length with hn | hn
    · rw [Nat.min_eq_left hn]
    · rw [Nat.min_eq_right hn, List.drop_length, List.drop_eq_nil_of_le hn]
  · rw [hd.position, h.offset, h.rest, Source.offset_advance, hf.advance]
  · rw [Source.offset_advance, h.count, Option.map_map, hrest]
    cases total with
    | none => rfl
    | some k =>
      have hk := h.le k rfl
      simp only [Option.map_some, Function.comp, Option.some.injEq]
      omega
  · have := h.le k hk
    omega

/-- A source and a device that delivers the same are read alike, whatever the device is made of. -/
theorem tracks_besides {f : Option Nat → Option Nat} (hf : MovesAlong f) (total : Option Nat) :
    Tracks f (Besides f total) := by
  refine ⟨hf.unknown, fun h => h.offset, fun h => congrArg List.length h.rest, fun n s d h => ?_⟩
  obtain ⟨d', hd, hrun⟩ := d.upTo_device n
  have hstates := h.advance hf hd
  rw [hrun, Source.upTo_eq, h.breaks, h.rest]
  by_cases hc : s.breaks = true ∧ s.rest.length < n
  · rw [if_pos hc, if_pos hc]
    rw [Nat.min_eq_right (by omega)] at hstates
    exact .error (e := .stream .broken) hstates
  · rw [if_neg hc, if_neg hc]
    exact .ok hstates

end Wire

/-- The source that delivers what a device does. -/
def Wire.Device.toSource (d : Device) : Source :=
  { rest := d.rest, position := d.position.getD 0, knowsPosition := d.position.isSome, breaks := d.breaks }

theorem besides_toSource (d : Device) : Besides id (d.position.map (· + d.rest.length)) d.toSource d := by
  have hoffset : d.toSource.offset = d.position := by
    cases hp : d.position <;> simp [Device.toSource, Source.offset, hp]
  refine ⟨rfl, rfl, hoffset.symm, ?_, ?_⟩
  · rw [hoffset, Option.map_map]
    cases d.position <;> simp [Device.toSource]
  · cases d.position <;> simp [Device.toSource]

end ScriptCore
