import ScriptCore.Proofs.Obstacles

/-!
# Wire forms that are cut off

No strict initial part of a wire form is accepted (`ofBytes_cut`). Where the input ends inside the bytes of a text whose
length has been read, the reader says how many bytes of the text are there; everywhere else it only finds the end of
the input.

`Tree.TextAt x o text` says that in the wire form of `x` the bytes of a text or a name start at the offset `o`, behind
its length, and `Tree.Cut x start k e` what error `e` the first `k` bytes of the wire form are refused with, if they
start at the position `start`. The end of the input is an obstacle for the reader (`exists_blocked_of_cut`).
-/
namespace ScriptCore

open Wire Wire.Source

/-! ## Where the texts are -/

namespace Tree

/-- In the wire form of the tree the bytes of the text start at the offset. -/
inductive TextAt : {p : Place} → Tree p → Nat → String → Prop
  | text {text : String} : TextAt (.leaf (.text text)) 8 text
  | symbol {name : String} : TextAt (.leaf (.symbol name)) 8 name
  | car {p : Place} {kind : CellKind} {car : Tree .first} {cdr : Tree .second} {o : Nat} {text : String}
      (h : TextAt car o text) : TextAt (.cell (p := p) kind car cdr) (5 + o) text
  | cdr {p : Place} {kind : CellKind} {car : Tree .first} {cdr : Tree .second} {o : Nat} {text : String}
      (h : TextAt cdr o text) : TextAt (.cell (p := p) kind car cdr) (5 + car.encode.length + o) text

variable {p : Place}

theorem length_header (h : Header) : (Item.header h).bytes.length = 4 := by
  simp [Item.bytes, length_bigEndian]

theorem length_encode_cell (kind : CellKind) (car : Tree .first) (cdr : Tree .second) :
    (Tree.cell (p := p) kind car cdr).encode.length = 5 + car.encode.length + cdr.encode.length := by
  simp only [encode, List.length_append, length_header]
  simp only [Item.bytes, List.length_singleton]
  omega

/-- The item of the text, its length and its bytes, stands there in the wire form. -/
theorem TextAt.encode {x : Tree p} {o : Nat} {text : String} (h : x.TextAt o text) :
    ∃ front behind, x.encode = front ++ ((Item.text text).bytes ++ behind) ∧ front.length + 4 = o := by
  induction h with
  | text | symbol =>
    exact ⟨_, [], by rw [List.append_nil]; rfl, by rw [length_header]⟩
  | @car p kind car cdr o text _ ih =>
    obtain ⟨front, behind, hcar, hlen⟩ := ih
    refine ⟨(Item.header .cell).bytes ++ (Item.u8 kind.byte).bytes ++ front, behind ++ cdr.encode, ?_, ?_⟩
    · simp only [Tree.encode, hcar, List.append_assoc]
    · simp only [List.length_append, length_header]
      simp only [Item.bytes, List.length_singleton]
      omega
  | @cdr p kind car cdr o text _ ih =>
    obtain ⟨front, behind, hcdr, hlen⟩ := ih
    refine ⟨(Item.header .cell).bytes ++ (Item.u8 kind.byte).bytes ++ car.encode ++ front, behind, ?_, ?_⟩
    · simp only [Tree.encode, hcdr, List.append_assoc]
    · simp only [List.length_append, length_header]
      simp only [Item.bytes, List.length_singleton]
      omega

theorem TextAt.le_length {x : Tree p} {o : Nat} {text : String} (h : x.TextAt o text) :
    o + (utf8 text).length ≤ x.encode.length := by
  obtain ⟨front, behind, hx, hlen⟩ := h.encode
  rw [hx]
  simp only [List.length_append, Item.bytes, length_bigEndian]
  omega

/-- The error for the first `k` bytes of the wire form, if they start at the position. -/
inductive Cut (x : Tree p) (start : Option Nat) (k : Nat) : SerialError → Prop
  /-- They end inside the bytes of a text. -/
  | text {o : Nat} {text : String} (found : x.TextAt o text) (le : o ≤ k) (lt : k < o + (utf8 text).length) :
      Cut x start k (.invalid (.textCut (utf8 text).length (k - o)) (start.map (· + o)))
  /-- They end anywhere else. -/
  | elsewhere (h : ∀ o text, x.TextAt o text → o ≤ k → o + (utf8 text).length ≤ k) :
      Cut x start k (.stream .endOfInput)

/-- A part of the wire form that starts `n` bytes behind its beginning is cut off with the whole. -/
theorem Cut.shift {q : Place} {x : Tree p} {y : Tree q} {start : Option Nat} {n k : Nat} {e : SerialError}
    (inside : ∀ o text, y.TextAt o text → x.TextAt (n + o) text)
    (outside : ∀ o text, x.TextAt o text → o ≤ n + k →
      o + (utf8 text).length ≤ n ∨ ∃ o', o = n + o' ∧ y.TextAt o' text)
    (h : y.Cut (start.map (· + n)) k e) : x.Cut start (n + k) e := by
  cases h with
  | @text o text found le lt =>
    have hstart : (start.map (· + n)).map (· + o) = start.map (· + (n + o)) := by
      cases start <;> simp [Nat.add_assoc]
    rw [hstart, show k - o = n + k - (n + o) by omega]
    exact .text (inside o text found) (Nat.add_le_add_left le n) (by omega)
  | elsewhere h =>
    refine .elsewhere fun o text found le => ?_
    rcases outside o text found le with hend | ⟨o', rfl, found'⟩
    · omega
    · have := h o' text found' (by omega)
      omega

end Tree

/-! ## Input that ends inside an item -/

/-- Of two parts the first is there as a whole. -/
theorem reads_of_take {source : Source} (front : List UInt8) {behind : List UInt8} {k : Nat}
    (h : source.rest = (front ++ behind).take k) (hk : front.length ≤ k) :
    source.Reads front (source.advance front.length) ∧
      (source.advance front.length).rest = behind.take (k - front.length) := by
  rw [List.take_append, List.take_of_length_le hk] at h
  refine ⟨reads_of_rest h, ?_⟩
  rw [advance, h, List.drop_left]

theorem breaks_advance (source : Source) (n : Nat) : (source.advance n).breaks = source.breaks := rfl

/-- A text is cut off inside its length or inside its bytes. -/
theorem readText_cut {source : Source} {text : String} {k : Nat} (lasts : source.breaks = false)
    (hfit : (Item.text text).Fits) (h : source.rest = (Item.text text).bytes.take k)
    (hk : k < (Item.text text).bytes.length) :
    ∃ source', readText source = .error (if k < 4 then .stream .endOfInput else
      .invalid (.textCut (utf8 text).length (k - 4)) (source.offset.map (· + 4))) source' := by
  have hlen : (Item.text text).bytes.length = 4 + (utf8 text).length := by
    simp [Item.bytes, length_bigEndian]
  have hrest : source.rest.length = k := by rw [h, List.length_take]; omega
  by_cases hshort : k < 4
  · obtain ⟨source', hrun⟩ := number_short UInt32.ofNat lasts (hrest ▸ hshort)
    exact ⟨source', by rw [if_pos hshort, readText, run_bind, readU32, hrun]⟩
  · have hto : (UInt32.ofNat (utf8 text).length).toNat = (utf8 text).length := by
      simp only [Item.Fits, maxTextBytes, UInt32.size] at hfit
      rw [UInt32.toNat_ofNat']
      omega
    have hfront : (Item.u32 (UInt32.ofNat (utf8 text).length)).bytes = bigEndian 4 (utf8 text).length := by
      rw [Item.bytes, hto]
    obtain ⟨hreads, hpart⟩ := reads_of_take (bigEndian 4 (utf8 text).length) h (by rw [length_bigEndian]; omega)
    rw [length_bigEndian] at hreads hpart
    rw [← hfront] at hreads
    have hcount : ((source.advance 4).rest.take (utf8 text).length).length = k - 4 := by
      simp only [hpart, List.length_take]
      omega
    have hbytes := upTo_eq (utf8 text).length (source.advance 4)
    rw [if_neg (by simp [advance, lasts])] at hbytes
    have hstart : Wire.offset (source.advance 4) = .ok (source.offset.map (· + 4)) (source.advance 4) :=
      offset_ok_iff.mpr ⟨(offset_advance source 4).symm, rfl⟩
    refine ⟨(source.advance 4).advance (min (utf8 text).length (source.advance 4).rest.length), ?_⟩
    simp only [readText, run_bind, readU32_ok_iff.mpr hreads, hto, hstart, hbytes, hcount,
      show k - 4 ≠ (utf8 text).length by omega, ne_eq, not_false_eq_true, if_true, if_neg hshort]
    rfl

/-- The one text of a leaf is cut off in its length or in its bytes. -/
theorem cut_leaf {x : Datum} {text : String} {k : Nat} {start : Option Nat}
    (found : ∀ o t, (Tree.leaf x).TextAt o t ↔ o = 8 ∧ t = text) (hk : k < (Item.text text).bytes.length) :
    (Tree.leaf x).Cut start (4 + k) (if k < 4 then .stream .endOfInput else
      .invalid (.textCut (utf8 text).length (k - 4)) ((start.map (· + 4)).map (· + 4))) := by
  have hlen : (Item.text text).bytes.length = 4 + (utf8 text).length := by
    simp [Item.bytes, length_bigEndian]
  split
  · refine .elsewhere fun o t ht hle => ?_
    obtain ⟨rfl, -⟩ := (found o t).mp ht
    omega
  · have hstart : (start.map (· + 4)).map (· + 4) = start.map (· + 8) := by cases start <;> rfl
    rw [hstart, show k - 4 = 4 + k - 8 by omega]
    exact .text ((found 8 text).mpr ⟨rfl, rfl⟩) (by omega) (by omega)

/-- Plain data is cut off behind its header. -/
theorem readLike_cut {x : Datum} {source : Source} {start : Option Nat} {k : Nat} (lasts : source.breaks = false)
    (hfit : x.item.Fits) (h : source.rest = x.item.bytes.take k) (hk : k < x.item.bytes.length)
    (hstart : source.offset = start.map (· + 4)) :
    ∃ e source', x.blank.readLike source = .error e source' ∧ (Tree.leaf x).Cut start (4 + k) e := by
  have hrest : source.rest.length = k := by rw [h, List.length_take]; omega
  cases x with
  | integer n =>
    have hshort : source.rest.length < 8 := by
      rw [hrest]
      exact Nat.lt_of_lt_of_eq hk (length_bigEndian 8 _)
    obtain ⟨source', hrun⟩ := number_short (fun n => (UInt64.ofNat n).toInt64) lasts hshort
    refine ⟨_, source', ?_, .elsewhere fun o t ht => by cases ht⟩
    rw [Datum.blank, Datum.readLike, run_bind, readI64, hrun]
  | boolean b =>
    have hempty : source.rest = [] := List.eq_nil_of_length_eq_zero (by rw [hrest]; exact Nat.lt_one_iff.mp hk)
    obtain ⟨source', hrun⟩ := readU8_empty lasts hempty
    refine ⟨_, source', ?_, .elsewhere fun o t ht => by cases ht⟩
    simp only [Datum.blank, Datum.readLike, readBool, run_bind, offset_ok_iff.mpr ⟨rfl, rfl⟩, hrun]
  | text text =>
    obtain ⟨source', hrun⟩ := readText_cut lasts hfit h hk
    refine ⟨_, source', ?_, hstart ▸ cut_leaf (fun o t => ⟨?_, ?_⟩) hk⟩
    · rw [Datum.blank, Datum.readLike, run_bind, hrun]
    · intro ht; cases ht; exact ⟨rfl, rfl⟩
    · rintro ⟨rfl, rfl⟩; exact .text
  | symbol name =>
    obtain ⟨source', hrun⟩ := readText_cut lasts hfit h hk
    refine ⟨_, source', ?_, hstart ▸ cut_leaf (fun o t => ⟨?_, ?_⟩) hk⟩
    · rw [Datum.blank, Datum.readLike, run_bind, hrun]
    · intro ht; cases ht; exact ⟨rfl, rfl⟩
    · rintro ⟨rfl, rfl⟩; exact .symbol

/-! ## Input that ends inside a tree -/

/-- The end of the input is in the way, wherever in the wire form it comes. -/
theorem exists_blocked_of_cut {p : Place} {x : Tree p} {d k : Nat} {source : Source} (hfit : x.Fits)
    (hd : x.depth + d ≤ maxNesting) (lasts : source.breaks = false) (h : source.rest = x.encode.take k)
    (hk : k < x.encode.length) : ∃ e, Blocked d x source e ∧ x.Cut source.offset k e := by
  induction x generalizing d k source with
  | nil =>
    have hshort : source.rest.length < 4 := by
      rw [h, List.length_take]
      exact Nat.lt_of_le_of_lt (Nat.min_le_left _ _) (Nat.lt_of_lt_of_eq hk (Tree.length_header _))
    exact ⟨_, .header lasts hshort, .elsewhere fun o t ht => by cases ht⟩
  | leaf x =>
    by_cases hshort : k < 4
    · refine ⟨_, .header lasts ?_, .elsewhere fun o t ht hle => ?_⟩
      · rw [h, List.length_take]; omega
      · cases ht <;> omega
    · obtain ⟨hheader, hpart⟩ := reads_of_take (Item.header x.header).bytes h (by rw [Tree.length_header]; omega)
      have hlen : (Tree.leaf x).encode.length = 4 + x.item.bytes.length := by
        rw [Tree.encode, List.length_append, Tree.length_header]
      rw [Tree.length_header] at hheader hpart
      rw [← breaks_advance source 4] at lasts
      obtain ⟨e, source₂, hrun, hcut⟩ := readLike_cut lasts hfit hpart (by omega) (offset_advance source 4)
      rw [show 4 + (k - 4) = k by omega] at hcut
      exact ⟨e, .state hheader hrun, hcut⟩
  | @cell p kind car cdr ihcar ihcdr =>
    have hlen := Tree.length_encode_cell (p := p) kind car cdr
    simp only [Tree.depth] at hd
    have hfront : ((Item.header .cell).bytes ++ (Item.u8 kind.byte).bytes).length = 5 := rfl
    by_cases hshort : k < 5
    · -- in front of the first slot there is no text
      have hcut : (Tree.cell (p := p) kind car cdr).Cut source.offset k (.stream .endOfInput) :=
        .elsewhere fun o t ht hle => by cases ht <;> omega
      by_cases hheader : k < 4
      · exact ⟨_, .header lasts (by rw [h, List.length_take]; omega), hcut⟩
      · obtain ⟨hreads, hpart⟩ := reads_of_take (Item.header .cell).bytes h (Nat.not_lt.mp hheader)
        rw [Tree.length_header, show k - 4 = 0 by omega] at hpart
        exact ⟨_, .kind hreads lasts hpart, hcut⟩
    by_cases hcar : k - 5 < car.encode.length
    · rw [Tree.encode, ← List.append_assoc] at h
      obtain ⟨hreads, hpart⟩ := reads_of_take _ h (by omega)
      rw [hfront] at hreads hpart
      rw [List.take_append_of_le_length (by omega)] at hpart
      rw [← breaks_advance source 5] at lasts
      have hroom := car.depth_pos
      obtain ⟨e, hblocked, hcut⟩ := ihcar hfit.1 (d := d + 1) (by omega) lasts hpart hcar
      rw [offset_advance] at hcut
      refine ⟨e, .car hreads (by omega) hblocked, ?_⟩
      have hshift := hcut.shift (x := .cell (p := p) kind car cdr) (fun _ _ => .car) fun o t ht hle => by
        cases ht with
        | car ht => exact .inr ⟨_, rfl, ht⟩
        | cdr ht => omega
      rwa [show 5 + (k - 5) = k by omega] at hshift
    · rw [Tree.encode, ← List.append_assoc, ← List.append_assoc] at h
      obtain ⟨hreads, hpart⟩ := reads_of_take _ h (by simp only [List.length_append] at hfront ⊢; omega)
      rw [List.length_append, hfront] at hreads hpart
      rw [List.append_assoc] at hreads
      rw [← breaks_advance source (5 + car.encode.length)] at lasts
      obtain ⟨e, hblocked, hcut⟩ := ihcdr hfit.2 (d := d) (by omega) lasts hpart (by omega)
      rw [offset_advance] at hcut
      refine ⟨e, .cdr hreads hfit.1 (by omega) hblocked, ?_⟩
      have hshift := hcut.shift (x := .cell (p := p) kind car cdr) (fun _ _ => .cdr) fun o t ht hle => by
        cases ht with
        | car ht => exact .inl (by have := ht.le_length; omega)
        | cdr ht => exact .inr ⟨_, rfl, ht⟩
      rwa [show 5 + car.encode.length + (k - (5 + car.encode.length)) = k by omega] at hshift

/-! ## Bytes as a whole -/

open Store

/-- What a value of the core types is written as does not go through the reader if any part of its end is missing. The
error is that of the place where the bytes end, with whatever families and whatever objects there are. -/
theorem ofBytes_cut {s : Store} {v : Value} {bytes : List UInt8} (hv : s.Core v) (h : s.toBytes v = .ok bytes) :
    ∃ (x : Tree .first) (rs : List Ref), s.Unfolds v x rs ∧ x.encode = bytes ∧
      ∀ part, part <+: bytes → part ≠ bytes → ∀ r : Registry, r.HasCore → ∀ u : Store,
        ∃ e t, r.ofBytes part u = .error e t ∧ x.Cut (some 0) part.length e := by
  obtain ⟨x, rs, hx, hfit, hd, rfl⟩ := (toBytes_iff hv.plain).mp h
  refine ⟨x, rs, hx, rfl, fun part hpart hne r hr u => ?_⟩
  have hk : part.length < x.encode.length := by
    refine Nat.lt_of_le_of_ne hpart.length_le fun e => hne ?_
    exact hpart.eq_of_length e
  have hrest : (Source.ofBytes .cursor part).rest = x.encode.take part.length := List.prefix_iff_eq_take.mp hpart
  obtain ⟨e, hblocked, hcut⟩ := exists_blocked_of_cut (d := 0) hfit hd rfl hrest hk
  obtain ⟨t, ht⟩ := ofBytes_of_blocked hr hblocked u
  exact ⟨e, t, ht, hcut⟩

/-- The list of the text `hi` and the number 7. -/
def greeting : Store where
  cells := #[{ car := some (.atom ⟨0⟩), cdr := some ⟨1⟩ }, { car := some (.atom ⟨1⟩) }]
  atoms := #[.datum (.text "hi"), .datum (.integer 7)]

/-- The wire form of the list. -/
def greetingBytes : List UInt8 :=
  [0, 1, 0, 0, 0, 0, 1, 0, 3, 0, 0, 0, 2, 104, 105, 0, 1, 0, 0, 0, 0, 1, 0, 1, 0, 0, 0, 0, 0, 0, 0, 7, 0, 0, 255, 255]

/-- Behind the first letter of the text one of two bytes is there. In front of the marker that ends the list only the
end of the input is found. -/
theorem ofBytes_cut_greeting :
    greeting.toBytes (some (.cell ⟨0⟩)) = .ok greetingBytes ∧
    (∃ t, Registry.core.ofBytes (greetingBytes.take 14) {} = .error (.invalid (.textCut 2 1) (some 13)) t) ∧
    ∃ t, Registry.core.ofBytes (greetingBytes.take 32) {} = .error (.stream .endOfInput) t := by
  have htext : greeting.atom ⟨0⟩ = .datum (.text "hi") := rfl
  have hnumber : greeting.atom ⟨1⟩ = .datum (.integer 7) := rfl
  have hlist : greeting.Unfolds (p := .first) (some (.cell ⟨0⟩)) _ _ := .cell (.leaf htext) (.cell (.leaf hnumber) .nil)
  have hfound : ∀ o text, Tree.TextAt (p := .first)
      (.cell .list (.leaf (.text "hi")) (.cell .list (.leaf (.integer 7)) .nil)) o text → o = 13 ∧ text = "hi" := by
    intro o text h
    cases h with
    | car h => cases h; exact ⟨rfl, rfl⟩
    | cdr h => cases h with | car h => cases h | cdr h => cases h
  have hbytes : greeting.toBytes (some (.cell ⟨0⟩)) = .ok greetingBytes := by decide +kernel
  obtain ⟨x, rs, hx, -, hcut⟩ := ofBytes_cut (fun _ => hlist.data) hbytes
  obtain ⟨rfl, -⟩ := hlist.unique hx
  obtain ⟨e, t, ht, he⟩ :=
    hcut (greetingBytes.take 14) (List.take_prefix _ _) (by decide) .core Registry.hasCore_core {}
  obtain ⟨e', t', ht', he'⟩ :=
    hcut (greetingBytes.take 32) (List.take_prefix _ _) (by decide) .core Registry.hasCore_core {}
  refine ⟨hbytes, ⟨t, ?_⟩, t', ?_⟩
  · cases he with
    | text found le lt =>
      obtain ⟨rfl, rfl⟩ := hfound _ _ found
      exact ht
    | elsewhere h => exact absurd (h 13 "hi" (.car .text) (by decide)) (by decide)
  · cases he' with
    | text found le lt =>
      obtain ⟨rfl, rfl⟩ := hfound _ _ found
      exact absurd lt (by decide)
    | elsewhere h => exact ht'

end ScriptCore
