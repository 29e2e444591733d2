import ScriptCore.Proofs.Relocation

/-!
# What the positions in errors point at

An error that complains about bytes names the position at which they stand (`SerialError.Located`). On a device that
knows its position this holds of every error of `deserialize`, at whatever depth it arises and whatever the objects on
the way read, and in a longer input each position is moved by what stands in front (`deserialize_located`).

`Points device b p x Q` is a triple for actions that start where the device is at position `p` of `b`: the action ends
at some position of `b`, with a result that `Q` admits at that position or with an error that is located.
-/
namespace ScriptCore

open Wire

/-- Where an error says so, the bytes it complains about stand: the family or the header that cannot be decoded, the
byte that is no kind or no truth value, the header that cannot head a second slot. For a text that is the place behind
its length, and the text is cut short there or is not valid. -/
def SerialError.Located (b : List UInt8) : SerialError → Prop
  | .unknownFamily family offset => ∃ n, offset = some n ∧ b.extract n (n + 2) = (Item.u16 family).bytes
  | .unknownMember h offset | .mismatch h _ _ offset =>
    ∃ n, offset = some n ∧ b.extract n (n + 4) = (Item.header h).bytes
  | .invalid (.cellKind byte) offset | .invalid (.boolean byte) offset =>
    ∃ n, offset = some n ∧ b[n]? = some byte ∧ byte ≠ 0 ∧ byte ≠ 1
  | .invalid (.cdrHeader h) offset =>
    ∃ n, offset = some n ∧ b.extract n (n + 4) = (Item.header h).bytes ∧ h ≠ .cell ∧ h ≠ .nil
  | .invalid (.textCut expected got) offset =>
    ∃ n, offset = some n ∧ ∃ length : UInt32, b.extract (n - 4) n = (Item.u32 length).bytes ∧
      expected = length.toNat ∧ got = b.length - n ∧ got < expected
  | .invalid .notUtf8 offset =>
    ∃ n, offset = some n ∧ ∃ length : UInt32, b.extract (n - 4) n = (Item.u32 length).bytes ∧
      n + length.toNat ≤ b.length ∧ ofUtf8? (b.extract n (n + length.toNat)) = none
  | _ => True

/-- The device delivers `b` from position `p` on, and knows it. -/
structure Wire.Device.At (b : List UInt8) (p : Nat) (d : Device) : Prop where
  position : d.position = some p
  rest : d.rest = b.drop p

/-! ## Triples -/

section Triple

variable {σ α β : Type} {place : Nat → σ → Prop} {b : List UInt8} {p : Nat} {Q R : α → Nat → Prop}
  {Q' : β → Nat → Prop}

/-- A result that `Q` admits at the position reached, or an error that is located. -/
inductive Lands (b : List UInt8) (place : Nat → σ → Prop) (Q : α → Nat → Prop) :
    EStateM.Result SerialError σ α → Prop
  | ok {a : α} {s : σ} {p : Nat} (stands : place p s) (result : Q a p) : Lands b place Q (.ok a s)
  | error {e : SerialError} {s : σ} {p : Nat} (stands : place p s) (located : e.Located b) :
      Lands b place Q (.error e s)

/-- From position `p` on, the action ends at a position, with a result that `Q` admits or an error that is located. -/
def Points (b : List UInt8) (place : Nat → σ → Prop) (p : Nat) (x : EStateM SerialError σ α) (Q : α → Nat → Prop) :
    Prop :=
  ∀ s, place p s → Lands b place Q (x s)

theorem points_pure {a : α} (h : Q a p) : Points b place p (pure a) Q :=
  fun _ stands => .ok stands h

theorem points_throw {e : SerialError} (h : e.Located b) : Points b place p (throw e) Q :=
  fun _ stands => .error stands h

theorem points_throw_bind {e : SerialError} {k : α → EStateM SerialError σ β} (h : e.Located b) :
    Points b place p (throw e >>= k) Q' :=
  fun _ stands => .error stands h

theorem points_bind {x : EStateM SerialError σ α} {k : α → EStateM SerialError σ β} (hx : Points b place p x Q)
    (hk : ∀ a p', Q a p' → Points b place p' (k a) Q') : Points b place p (x >>= k) Q' := by
  intro s stands
  have hr := hx s stands
  rw [run_bind]
  generalize x s = result at hr
  cases hr with
  | ok stands result => exact hk _ _ result _ stands
  | error stands located => exact .error stands located

theorem Points.mono {x : EStateM SerialError σ α} (hx : Points b place p x Q) (h : ∀ a p', Q a p' → R a p') :
    Points b place p x R := by
  intro s stands
  have hr := hx s stands
  generalize x s = result at hr
  cases hr with
  | ok stands result => exact .ok stands (h _ _ result)
  | error stands located => exact .error stands located

end Triple

/-! ## Readers -/

namespace Wire

variable {α : Type} {b : List UInt8} {p : Nat}

theorem points_offset_bind {k : Option Nat → StreamM Device α} {Q : α → Nat → Prop}
    (hk : Points b (Device.At b) p (k (some p)) Q) : Points b (Device.At b) p (offset >>= k) Q := by
  intro d stands
  have hrun : (offset >>= k) d = k d.position d := rfl
  rw [hrun, stands.position]
  exact hk d stands

theorem points_upTo (n : Nat) :
    Points b (Device.At b) p (InputStream.upTo n)
      fun bytes p' => bytes = b.extract p (p + n) ∧ p' = p + bytes.length := by
  intro d stands
  obtain ⟨d', moved, hrun⟩ := d.upTo_device n
  have hbytes : d.rest.take n = b.extract p (p + n) := by
    rw [stands.rest, List.extract_eq_take_drop, Nat.add_sub_cancel_left]
  have hstands : d'.At b (p + (d.rest.take n).length) := by
    refine ⟨by rw [moved.position, stands.position, List.length_take]; rfl, ?_⟩
    rw [moved.rest, stands.rest, List.drop_drop, List.length_take, List.length_drop]
    rcases Nat.le_total n (b.length - p) with hn | hn
    · rw [Nat.min_eq_left hn]
    · rw [List.drop_eq_nil_of_le (by omega), List.drop_eq_nil_of_le (by omega)]
  rw [hrun]
  split
  · exact .error hstands trivial
  · exact .ok hstands ⟨hbytes, rfl⟩

theorem points_exactly (n : Nat) :
    Points b (Device.At b) p (InputStream.exactly n)
      fun bytes p' => b.extract p p' = bytes ∧ bytes.length = n ∧ p' = p + n := by
  refine points_bind (points_upTo n) fun bytes p' ⟨hbytes, hp⟩ => ?_
  have hle : bytes.length ≤ n := by
    rw [hbytes, List.extract_eq_take_drop, List.length_take]
    omega
  split
  · exact points_throw trivial
  · next hlt =>
    obtain rfl : p' = p + n := by omega
    exact points_pure ⟨hbytes.symm, by omega, rfl⟩

/-- A number of fixed width: `ofNat` and `toNat` are the number behind `w` digits and its value. -/
theorem points_number (w : Nat) (ofNat : Nat → α) (toNat : α → Nat) (hto : ∀ n, n < 256 ^ w → toNat (ofNat n) = n) :
    Points b (Device.At b) p (do return ofNat (ofBigEndian (← InputStream.exactly w)))
      fun a p' => b.extract p p' = bigEndian w (toNat a) ∧ p' = p + w := by
  refine points_bind (points_exactly w) fun bytes p' ⟨hbytes, hlen, hp⟩ => points_pure ⟨?_, hp⟩
  subst hlen
  rw [hto _ (ofBigEndian_lt bytes), bigEndian_ofBigEndian, hbytes]

theorem points_readU8 : Points b (Device.At b) p readU8 fun byte p' => b[p]? = some byte ∧ p' = p + 1 := by
  refine (points_number 1 UInt8.ofNat UInt8.toNat (fun n hn => by simp; omega)).mono ?_
  rintro byte _ ⟨hbyte, rfl⟩
  refine ⟨?_, rfl⟩
  have hbytes : bigEndian 1 byte.toNat = [byte] := by simp [bigEndian]
  have hfirst := congrArg List.head? hbyte
  rwa [hbytes, List.extract_eq_take_drop, Nat.add_sub_cancel_left, List.head?_take, List.head?_drop,
    if_neg (by decide)] at hfirst

theorem points_readU16 :
    Points b (Device.At b) p readU16 fun n p' => b.extract p p' = (Item.u16 n).bytes ∧ p' = p + 2 :=
  points_number 2 UInt16.ofNat UInt16.toNat (fun n hn => by simp; omega)

theorem points_readU32 :
    Points b (Device.At b) p readU32 fun n p' => b.extract p p' = (Item.u32 n).bytes ∧ p' = p + 4 :=
  points_number 4 UInt32.ofNat UInt32.toNat (fun n hn => by simp; omega)

theorem points_readI64 : Points b (Device.At b) p readI64 fun _ _ => True :=
  points_bind (points_exactly 8) fun _ _ _ => points_pure trivial

theorem points_readBool : Points b (Device.At b) p readBool fun _ _ => True := by
  refine points_offset_bind (points_bind points_readU8 fun byte p' hbyte => ?_)
  split
  · exact points_pure trivial
  · exact points_pure trivial
  · next hzero hone => exact points_throw ⟨p, rfl, hbyte.1, hzero, hone⟩

theorem points_readText : Points b (Device.At b) p readText fun _ _ => True := by
  refine points_bind points_readU32 fun length start hlength => points_offset_bind ?_
  obtain ⟨hat, hstart⟩ := hlength
  have hat' : b.extract (start - 4) start = (Item.u32 length).bytes := by
    rwa [hstart, Nat.add_sub_cancel, ← hstart]
  refine points_bind (points_upTo _) fun bytes _ hbytes => ?_
  have hgot : bytes.length = min length.toNat (b.length - start) := by
    rw [hbytes.1, List.extract_eq_take_drop, Nat.add_sub_cancel_left, List.length_take, List.length_drop]
  by_cases hlen : bytes.length = length.toNat
  · simp only [hlen, ne_eq, not_true_eq_false, if_false]
    split
    · exact points_pure trivial
    · next hinvalid =>
      have hstart' : start ≤ b.length := by
        have hbytes := congrArg List.length hat
        rw [List.extract_eq_take_drop, List.length_take, List.length_drop] at hbytes
        have hfour : (Item.u32 length).bytes.length = 4 := rfl
        omega
      exact points_throw ⟨start, rfl, length, hat', by omega, hbytes.1 ▸ hinvalid⟩
  · simp only [hlen, ne_eq, not_false_eq_true, if_true]
    exact points_throw_bind ⟨start, rfl, length, hat', rfl, by omega, by omega⟩

/-- A header is two numbers, one behind the other. -/
theorem points_readHeader :
    Points b (Device.At b) p readHeader fun h _ =>
      b.extract p (p + 2) = (Item.u16 h.family).bytes ∧ b.extract p (p + 4) = (Item.header h).bytes := by
  refine points_bind points_readU16 fun family p' hfamily => points_bind points_readU16 fun member p'' hmember => ?_
  obtain ⟨hfamily, rfl⟩ := hfamily
  obtain ⟨hmember, rfl⟩ := hmember
  refine points_pure ⟨hfamily, ?_⟩
  have hbytes : (Item.header ⟨family, member⟩).bytes = (Item.u16 family).bytes ++ (Item.u16 member).bytes := rfl
  rw [hbytes, ← hfamily, ← hmember]
  simp only [List.extract_eq_take_drop, Nat.add_sub_cancel_left]
  rw [← List.drop_drop, ← List.take_add]

theorem points_read (shape : Shape) : Points b (Device.At b) p shape.read fun _ _ => True := by
  cases shape with
  | u8 => exact points_bind points_readU8 fun _ _ _ => points_pure trivial
  | u16 => exact points_bind points_readU16 fun _ _ _ => points_pure trivial
  | u32 => exact points_bind points_readU32 fun _ _ _ => points_pure trivial
  | i64 => exact points_bind points_readI64 fun _ _ _ => points_pure trivial
  | bool => exact points_bind points_readBool fun _ _ _ => points_pure trivial
  | text => exact points_bind points_readText fun _ _ _ => points_pure trivial
  | header => exact points_bind points_readHeader fun _ _ _ => points_pure trivial

theorem points_readLike (x : Datum) : Points b (Device.At b) p x.readLike fun _ _ => True := by
  cases x with
  | integer n => exact points_bind points_readI64 fun _ _ _ => points_pure trivial
  | boolean b => exact points_bind points_readBool fun _ _ _ => points_pure trivial
  | text s => exact points_bind points_readText fun _ _ _ => points_pure trivial
  | symbol name => exact points_bind points_readText fun _ _ _ => points_pure trivial

end Wire

/-! ## Values -/

section Values

open LoadM NestedM

variable {α : Type} {b : List UInt8} {p : Nat} {Q : α → Nat → Prop}

/-- The device that is read from is at position `p` of `b`. -/
def ReadingAt (b : List UInt8) (p : Nat) (m : Nested (Loading Device)) : Prop :=
  m.state.source.At b p

theorem points_onSource {x : StreamM Device α} (hx : Points b (Device.At b) p x Q) :
    Points b (ReadingAt b) p (onSource x) Q := by
  intro m stands
  have hr := hx m.state.source stands
  simp only [onSource, lift]
  generalize x m.state.source = result at hr
  cases hr with
  | ok stands result => exact .ok stands result
  | error stands located => exact .error stands located

theorem points_onStore (f : Store → α × Store) : Points b (ReadingAt b) p (onStore f) fun _ _ => True :=
  fun _ stands => .ok (p := p) stands trivial

theorem points_change (f : Store → Store) : Points b (ReadingAt b) p (change f) fun _ _ => True :=
  points_onStore _

theorem points_level {x : LoadingM Device α} (hx : Points b (ReadingAt b) p x Q) :
    Points b (ReadingAt b) p (level x) Q := by
  intro m stands
  simp only [level]
  split
  · exact .error stands trivial
  have hr := hx { m with depth := m.depth + 1 } stands
  generalize x { m with depth := m.depth + 1 } = result at hr
  cases hr with
  | ok stands result => exact .ok stands result
  | error stands located => exact .error stands located

theorem points_attempt {x : LoadingM Device α} (hx : Points b (ReadingAt b) p x Q) :
    Points b (ReadingAt b) p (attempt x) fun _ _ => True := by
  intro m stands
  have hr := hx m stands
  simp only [attempt]
  generalize x m = result at hr
  cases hr with
  | ok stands result => exact .ok stands trivial
  | error stands located => exact .ok stands trivial

theorem points_start {k : Option Nat → LoadingM Device α} (hk : Points b (ReadingAt b) p (k (some p)) Q) :
    Points b (ReadingAt b) p (onSource offset >>= k) Q := by
  intro m stands
  have hrun : (onSource offset >>= k) m = k m.state.source.position m := rfl
  rw [hrun, stands.position]
  exact hk m stands

variable {value : LoadingM Device Value} (hv : ∀ p, Points b (ReadingAt b) p value fun _ _ => True)

include hv

theorem points_readCell (c : CellId) (p : Nat) : Points b (ReadingAt b) p (readCell value c) fun _ _ => True := by
  refine points_start (points_bind (points_onSource points_readU8) fun byte p' hbyte => ?_)
  split
  · next hkind =>
    refine points_throw ⟨p, rfl, hbyte.1, ?_, ?_⟩
    · rintro rfl
      cases hkind
    · rintro rfl
      cases hkind
  · exact points_bind (hv p') fun _ _ _ => points_change _

theorem points_readTail (c : CellId) (rounds : Nat) (last : Option CellId) (p : Nat) :
    Points b (ReadingAt b) p (readTail value c rounds last) fun _ _ => True := by
  induction rounds generalizing last p with
  | zero => exact points_throw trivial
  | succ rounds ih =>
    refine points_start (points_bind (points_onSource points_readHeader) fun h p' hheader => ?_)
    split
    · split
      · exact points_change _
      · exact points_pure trivial
    next hnil =>
    split
    · refine points_bind (points_onStore _) fun new p _ => points_bind (points_readCell hv new p) fun _ p _ => ?_
      exact points_bind (points_change _) fun _ p _ => ih (some new) p
    · next hcell => exact points_throw ⟨p, rfl, hheader.2, hcell, hnil⟩

theorem points_recipe (recipe : Recipe) (p : Nat) :
    Points b (ReadingAt b) p (recipe.run value) fun _ _ => True := by
  induction recipe generalizing p with
  | done fields => exact points_pure trivial
  | refuse message => exact points_throw trivial
  | item shape next ih => exact points_bind (points_onSource (points_read shape)) fun i p _ => ih i p
  | value next ih => exact points_bind (hv p) fun v p _ => ih v p
  | view v next ih => exact fun m stands => ih (m.state.store.view v) p m stands
  | attempt first next ih ih' => exact points_bind (points_attempt (ih p)) fun fields p _ => ih' fields p

theorem points_readStateWith (r : Ref) (p : Nat) :
    Points b (ReadingAt b) p (readStateWith value r) fun _ _ => True := by
  cases r with
  | cell c =>
    refine points_bind (points_readCell hv c p) fun _ p _ m stands => ?_
    exact points_readTail hv c _ none p m stands
  | atom a =>
    intro m stands
    simp only [readStateWith, run_bind, run_get]
    cases m.state.store.atom a with
    | datum x => exact points_bind (points_onSource (points_readLike x)) (fun _ _ _ => points_change _) m stands
    | builtin f => exact .error stands trivial
    | host o =>
      cases hrecord : o.type.record with
      | none => simp only [hrecord]; exact .error stands trivial
      | some record =>
        simp only [hrecord]
        exact points_bind (points_recipe hv _ p) (fun _ _ _ => points_change _) m stands

omit hv

/-- A header that cannot be decoded is refused at the position at which it stands. -/
theorem prototype_located {r : Registry} {h : Header} {start : Nat} {e : SerialError}
    (hfamily : b.extract start (start + 2) = (Item.u16 h.family).bytes)
    (hheader : b.extract start (start + 4) = (Item.header h).bytes)
    (he : r.prototype h (some start) = .error e) : e.Located b := by
  unfold Registry.prototype at he
  split at he
  · cases he
    exact ⟨start, rfl, hfamily⟩
  split at he
  · cases he
    exact ⟨start, rfl, hheader⟩
  split at he
  · cases he
    trivial
  split at he
  · cases he
  · cases he
    exact ⟨start, rfl, hheader⟩

theorem points_readValue (r : Registry) (n p : Nat) :
    Points b (ReadingAt b) p (r.readValue n) fun _ _ => True := by
  induction n generalizing p with
  | zero => exact points_throw trivial
  | succ n ih =>
    refine points_level (points_start (points_bind (points_onSource points_readHeader) fun h p' hheader => ?_))
    split
    · exact points_pure trivial
    · have hnew : Points b (ReadingAt b) p' (r.instantiate h (some p)) fun _ _ => True := by
        unfold Registry.instantiate
        split
        · next e he => exact points_throw (prototype_located hheader.1 hheader.2 he)
        · exact points_onStore _
      refine points_bind hnew fun ref p _ => ?_
      exact points_bind (points_readStateWith ih ref p) fun _ _ _ => points_pure trivial

end Values

/-! ## Two devices -/

namespace Wire

/-- Two devices that deliver the same, the second of which reports positions as `f` says. -/
structure Device.Alike (f : Option Nat → Option Nat) (d d' : Device) : Prop where
  rest : d'.rest = d.rest
  breaks : d'.breaks = d.breaks
  position : d'.position = f d.position

theorem tracks_alike {f : Option Nat → Option Nat} (hf : MovesAlong f) : Tracks f (Device.Alike f) := by
  refine ⟨hf.unknown, fun h => h.position, fun h => congrArg List.length h.rest, fun n d d' h => ?_⟩
  obtain ⟨e, moved, hrun⟩ := d.upTo_device n
  obtain ⟨e', moved', hrun'⟩ := d'.upTo_device n
  have hstates : e.Alike f e' := by
    refine ⟨by rw [moved'.rest, moved.rest, h.rest], by rw [moved'.breaks, moved.breaks, h.breaks], ?_⟩
    rw [moved'.position, moved.position, hf.advance, h.position, h.rest]
  rw [hrun, hrun', h.breaks, h.rest]
  split
  · exact .error (e := .stream .broken) hstates
  · exact .ok hstates

end Wire

namespace Thread

/-- The position in an error of `deserialize` is the place of the bytes it complains about, whatever families are
registered, wherever reading starts and however deep the failure is. In a longer input everything is read in the same
way, with the positions moved by what stands in front. -/
theorem deserialize_located (r : Registry) (t : Thread) (b : List UInt8) :
    (∀ (p : Nat) (d d' : Device) (e : SerialError) (t' : Thread),
      d.At b p → deserialize r d t = (.error e d', t') → e.Located b) ∧
    ∀ (front : List UInt8) (d d' : Device),
      d.At b 0 → d'.At (front ++ b) front.length → d'.breaks = d.breaks →
        let moved := Option.map (front.length + ·)
        Matches moved (Device.Alike moved) (deserialize r d t).1 (deserialize r d' t).1 ∧
          (deserialize r d' t).2 = (deserialize r d t).2 := by
  constructor
  · intro p d d' e t' stands hrun
    have hlands := points_readValue (b := b) r maxNesting p ⟨⟨t.store, d⟩, t.reading⟩ stands
    simp only [deserialize, load, Registry.deserialize] at hrun
    generalize r.readValue maxNesting ⟨⟨t.store, d⟩, t.reading⟩ = result at hrun hlands
    cases hlands with
    | ok stands result => cases hrun
    | error stands located => cases hrun; exact located
  · intro front d d' stands stands' hbreaks moved
    have halike : d.Alike moved d' := by
      refine ⟨?_, hbreaks, by rw [stands'.position, stands.position]; rfl⟩
      rw [stands'.rest, stands.rest, List.drop_left, List.drop_zero]
    exact load_matches (follows_readValue (tracks_alike (movesAlong_add _)) r maxNesting) halike t

/-- A list whose first element is a truth value with the byte 7, at position 9, and 12 behind three other bytes. -/
theorem deserialize_located_nested :
    let b : List UInt8 := [0, 1, 0, 0, 0, 0, 1, 0, 2, 7]
    let front : List UInt8 := [5, 5, 5]
    let e : SerialError := .invalid (.boolean 7) (some 9)
    (∃ d' t', deserialize .core (Device.cursor b 0) {} = (.error e d', t')) ∧ e.Located b ∧
    ∃ d', (deserialize .core (Device.cursor (front ++ b) 3) {}).1 = .error (.invalid (.boolean 7) (some 12)) d' := by
  intro b front e
  have herror : (match (deserialize .core (Device.cursor b 0) {}).1 with
      | .ok _ _ => none
      | .error e _ => some e) = some e := by decide
  obtain ⟨hlocated, hmoved⟩ := deserialize_located .core {} b
  obtain ⟨hmatch, -⟩ := hmoved front (.cursor b 0) (.cursor (front ++ b) 3) ⟨rfl, rfl⟩ ⟨rfl, rfl⟩ rfl
  generalize (deserialize .core (Device.cursor (front ++ b) 3) {}).1 = result at hmatch ⊢
  generalize hrun : deserialize .core (Device.cursor b 0) {} = run at herror hmatch ⊢
  obtain ⟨outcome, t'⟩ := run
  cases hmatch with
  | ok states => cases herror
  | error states =>
    obtain rfl := Option.some.inj herror
    exact ⟨⟨_, _, rfl⟩, hlocated 0 _ _ _ _ ⟨rfl, rfl⟩ hrun, _, rfl⟩

end Thread

end ScriptCore
