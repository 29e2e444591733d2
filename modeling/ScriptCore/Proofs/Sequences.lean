import ScriptCore.Proofs.Relocation

/-!
# Items in sequence

Items that are written one after another are read back one after another, as long as each is read as what it was
written as. Nothing but the bytes of the items is used, so neither what stands in front of them nor what is written
behind them makes a difference (`items_read_back`). The other way round, whatever a reader accepts is what the writer
makes of the result.

`readItems_ok_iff` says both of a sequence on a source. A device is read like the source that delivers the same.
-/
namespace ScriptCore.Wire

/-- Writes items, one after another. -/
def writeItems : List Item → WriteM Unit
  | [] => pure ()
  | i :: items => do
    i.write
    writeItems items

/-- Reads items of the given shapes, one after another. -/
def readItems {σ : Type} [InputStream σ] : List Shape → StreamM σ (List Item)
  | [] => return []
  | shape :: shapes => do
    let i ← shape.read
    let items ← readItems shapes
    return i :: items

/-- The bytes of items in sequence. -/
def wireForm (items : List Item) : List UInt8 :=
  items.flatMap Item.bytes

theorem wireForm_cons (i : Item) (items : List Item) : wireForm (i :: items) = i.bytes ++ wireForm items :=
  List.flatMap_cons

/-- Only texts can be too long. -/
theorem fits_of_texts {items : List Item} (h : ∀ t, .text t ∈ items → (utf8 t).length < 2 ^ 32) {i : Item}
    (hi : i ∈ items) : i.Fits := by
  cases i with
  | text t => exact Nat.le_sub_one_of_lt (h t hi)
  | _ => trivial

/-! ## Writing -/

theorem writeItems_run {sink : Sink} (hroom : sink.capacity = none) {items : List Item} (hfit : ∀ i ∈ items, i.Fits) :
    writeItems items sink = .ok () (sink.push (wireForm items)) := by
  induction items generalizing sink with
  | nil => exact congrArg (EStateM.Result.ok ()) sink.push_nil.symm
  | cons i items ih =>
    have hfirst := (write_ok_iff hroom).mpr ⟨hfit i (by simp), rfl⟩
    rw [writeItems, run_bind, hfirst, wireForm_cons, ← push_push]
    exact ih hroom fun j hj => hfit j (by simp [hj])

/-! ## Reading -/

theorem readItems_ok_iff {shapes : List Shape} {items : List Item} {s s' : Source} :
    readItems shapes s = .ok items s' ↔
      items.map Item.shape = shapes ∧ (∀ i ∈ items, i.Fits) ∧ s.Reads (wireForm items) s' := by
  induction shapes generalizing items s with
  | nil =>
    rw [readItems, pure_ok_iff, List.map_eq_nil_iff]
    constructor
    · rintro ⟨rfl, rfl⟩
      exact ⟨rfl, by simp, Source.reads_nil.mpr rfl⟩
    · rintro ⟨rfl, -, hreads⟩
      exact ⟨rfl, Source.reads_nil.mp hreads⟩
  | cons shape shapes ih =>
    rw [readItems, bind_ok_iff]
    constructor
    · rintro ⟨i, t, hfirst, hmore⟩
      obtain ⟨more, u, hread, hpure⟩ := bind_ok_iff.mp hmore
      obtain ⟨rfl, rfl⟩ := pure_ok_iff.mp hpure
      obtain ⟨rfl, hfit, hreads⟩ := read_iff.mp hfirst
      obtain ⟨rfl, hfits, hrest⟩ := ih.mp hread
      refine ⟨rfl, by simpa using ⟨hfit, hfits⟩, ?_⟩
      rw [wireForm_cons]
      exact Source.reads_append.mpr ⟨t, hreads, hrest⟩
    · rintro ⟨hshapes, hfits, hreads⟩
      obtain ⟨i, more, rfl, rfl, rfl⟩ := List.map_eq_cons_iff.mp hshapes
      rw [wireForm_cons] at hreads
      obtain ⟨t, hfirst, hrest⟩ := Source.reads_append.mp hreads
      have hmore := ih.mpr ⟨rfl, fun j hj => hfits j (by simp [hj]), hrest⟩
      exact ⟨i, t, read_iff.mpr ⟨rfl, hfits i (by simp), hfirst⟩, bind_ok_iff.mpr ⟨more, s', hmore, rfl⟩⟩

/-- A sequence is read alike from two streams that are related. -/
theorem Tracks.readItems {σ τ : Type} [InputStream σ] [InputStream τ] {f : Option Nat → Option Nat} {R : σ → τ → Prop}
    (h : Tracks f R) (shapes : List Shape) :
    Follows f R (Wire.readItems shapes : StreamM σ (List Item)) (Wire.readItems shapes) := by
  induction shapes with
  | nil => exact follows_pure _
  | cons shape shapes ih => exact follows_bind (h.read shape) fun _ => follows_bind ih fun _ => follows_pure _

/-! ## Devices -/

/-- From `d` to `d'` the bytes were taken, and no others. -/
structure Device.Takes (d : Device) (bytes : List UInt8) (d' : Device) : Prop where
  rest : d.rest = bytes ++ d'.rest
  position : d'.position = d.position.map (· + bytes.length)

theorem takes_of_reads {d d' : Device} {s : Source} {bytes : List UInt8} {total : Option Nat}
    (h : d.toSource.Reads bytes s) (hbesides : Besides id total s d') : d.Takes bytes d' := by
  have hstart : d.position = d.toSource.offset := (besides_toSource d).offset
  obtain ⟨hrest, rfl⟩ := h
  refine ⟨by rw [hbesides.rest]; exact hrest, ?_⟩
  rw [hbesides.offset, hstart]
  exact Source.offset_advance _ _

theorem readItems_of_rest {d : Device} {items : List Item} {later : List UInt8} (hfit : ∀ i ∈ items, i.Fits)
    (h : d.rest = wireForm items ++ later) :
    ∃ d', readItems (items.map Item.shape) d = .ok items d' ∧ d'.rest = later ∧ d.Takes (wireForm items) d' := by
  have hreads : d.toSource.Reads (wireForm items) _ := Source.reads_of_rest h
  obtain ⟨d', hrun, hbesides⟩ := ((tracks_besides movesAlong_id _).readItems _).ok (besides_toSource d)
    (readItems_ok_iff.mpr ⟨rfl, hfit, hreads⟩)
  have htakes := takes_of_reads hreads hbesides
  have hrest := htakes.rest
  rw [h] at hrest
  exact ⟨d', hrun, (List.append_cancel_left hrest).symm, htakes⟩

theorem takes_of_read {d d' : Device} {shape : Shape} {i : Item} (h : shape.read d = .ok i d') :
    i.shape = shape ∧ i.Fits ∧ d.Takes i.bytes d' := by
  obtain ⟨s, hread, hbesides⟩ := ((tracks_besides movesAlong_id _).read shape).of_ok (besides_toSource d) h
  obtain ⟨hshape, hfit, hreads⟩ := read_iff.mp hread
  exact ⟨hshape, hfit, takes_of_reads hreads hbesides⟩

/-! ## Both directions -/

/-- Items of which no text is too long are written behind whatever the sink has taken before. A device that stands in
front of their bytes, with any bytes written later behind them, reads back the items in order, and then stands in
front of the later bytes. And whatever a device gives as an item of some shape took the very bytes that writing the
item makes. -/
theorem items_read_back :
    (∀ (items : List Item) (sink : Sink), (∀ t, .text t ∈ items → (utf8 t).length < 2 ^ 32) → sink.capacity = none →
      ∃ written sink', writeItems items sink = .ok () sink' ∧ sink'.bytes.toList = sink.bytes.toList ++ written ∧
        ∀ (later : List UInt8) (d : Device), d.rest = (sink'.bytes.toList ++ later).drop sink.bytes.size →
          ∃ d', readItems (items.map Item.shape) d = .ok items d' ∧ d'.rest = later ∧ d.Takes written d') ∧
    ∀ (shape : Shape) (d d' : Device) (i : Item), shape.read d = .ok i d' →
      i.shape = shape ∧ ∃ taken, d.Takes taken d' ∧
        ∀ sink : Sink, sink.capacity = none → ∃ sink', i.write sink = .ok () sink' ∧
          sink'.bytes.toList = sink.bytes.toList ++ taken := by
  have hpush : ∀ (sink : Sink) (bytes : List UInt8), (sink.push bytes).bytes.toList = sink.bytes.toList ++ bytes :=
    fun sink bytes => Array.toList_appendList
  constructor
  · intro items sink htexts hroom
    have hfit : ∀ i ∈ items, i.Fits := fun i => fits_of_texts htexts
    refine ⟨wireForm items, _, writeItems_run hroom hfit, hpush _ _, fun later d hd => ?_⟩
    rw [hpush, List.append_assoc, List.drop_left' Array.length_toList] at hd
    exact readItems_of_rest hfit hd
  · intro shape d d' i hread
    obtain ⟨hshape, hfit, htakes⟩ := takes_of_read hread
    exact ⟨hshape, i.bytes, htakes, fun sink hroom => ⟨_, (write_ok_iff hroom).mpr ⟨hfit, rfl⟩, hpush _ _⟩⟩

/-- The least number of eight bytes, a text with a letter of two bytes, an empty one, a header, a truth value and a
number of two bytes. -/
def mixedItems : List Item :=
  [.i64 Int64.minValue, .text "é!", .text "", .header ⟨1, 0xffff⟩, .bool true, .u16 258]

/-- The items are written behind a byte and read back through a counter and a small buffer from pieces of one, two and
more bytes, with another byte behind them. -/
theorem items_read_back_mixed :
    (∀ t, .text t ∈ mixedItems → (utf8 t).length < 2 ^ 32) ∧
    ∃ sink', writeItems mixedItems { bytes := #[9] } = .ok () sink' ∧
      sink'.bytes.toList =
        [9, 128, 0, 0, 0, 0, 0, 0, 0, 0, 0, 0, 3, 195, 169, 33, 0, 0, 0, 0, 0, 1, 255, 255, 1, 1, 2] ∧
      ∃ d', readItems [.i64, .text, .text, .header, .bool, .u16]
          (Device.tracked 1 (.buffered 3 [] (.pieces id false ((sink'.bytes.toList ++ [7]).drop 1)))) =
            .ok mixedItems d' ∧ d'.rest = [7] ∧ d'.position = some 27 := by
  have htexts : ∀ t, .text t ∈ mixedItems → (utf8 t).length < 2 ^ 32 := by
    intro t ht
    have hcases : t = "é!" ∨ t = "" := by simpa [mixedItems] using ht
    rcases hcases with rfl | rfl <;> decide
  obtain ⟨written, sink', hwrite, hbytes, hread⟩ := items_read_back.1 mixedItems { bytes := #[9] } htexts rfl
  have hall : sink'.bytes.toList =
      [9, 128, 0, 0, 0, 0, 0, 0, 0, 0, 0, 0, 3, 195, 169, 33, 0, 0, 0, 0, 0, 1, 255, 255, 1, 1, 2] := by
    cases hwrite
    decide +kernel
  have hlength : written.length = 26 := by
    have hsum := congrArg List.length hbytes
    rw [hall, List.length_append] at hsum
    exact Nat.add_left_cancel hsum.symm
  obtain ⟨d', hrun, hrest, htakes⟩ :=
    hread [7] (.tracked 1 (.buffered 3 [] (.pieces id false ((sink'.bytes.toList ++ [7]).drop 1)))) rfl
  refine ⟨htexts, sink', hwrite, hall, d', hrun, hrest, ?_⟩
  rw [htakes.position, hlength]
  rfl

end ScriptCore.Wire
