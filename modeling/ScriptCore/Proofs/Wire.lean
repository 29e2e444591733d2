import Mathlib.Algebra.Group.Nat.Defs
import Mathlib.Data.List.Induction
import ScriptCore.Wire.Codec

/-!
# Items read back

For each shape, `read` succeeds with an item exactly when the bytes of that item are next in the source, and
then leaves what stands behind them (`read_iff`). So an item is read back as it was written, whatever follows
it and in whatever pieces it arrives, and no item has a second spelling.

`Source.Reads s bytes s'` says that `bytes` are next in `s` and that `s'` is `s` behind them. Numbers are
moved to `Nat`, where the digits to the base 256 are unique (`ofBigEndian_bigEndian`, `bigEndian_ofBigEndian`).
-/
namespace ScriptCore

section Effect

variable {ε σ α β : Type}

/-- The state a run ends in. -/
def after {ε σ α : Type} : EStateM.Result ε σ α → σ
  | .ok _ s => s
  | .error _ s => s

theorem run_bind (x : EStateM ε σ α) (f : α → EStateM ε σ β) (s : σ) :
    (x >>= f) s = match x s with
      | .ok a s => f a s
      | .error e s => .error e s := rfl

theorem run_get (s : σ) : (get : EStateM ε σ σ) s = .ok s s := rfl

theorem bind_ok_iff {x : EStateM ε σ α} {f : α → EStateM ε σ β} {s s' : σ} {b : β} :
    (x >>= f) s = .ok b s' ↔ ∃ a t, x s = .ok a t ∧ f a t = .ok b s' := by
  rw [run_bind]
  cases x s <;> simp

theorem pure_ok_iff {s s' : σ} {a b : α} : (pure a : EStateM ε σ α) s = .ok b s' ↔ b = a ∧ s' = s := by
  constructor
  · intro h; cases h; exact ⟨rfl, rfl⟩
  · rintro ⟨rfl, rfl⟩; rfl

end Effect

namespace Wire

/-! ## Digits -/

theorem length_bigEndian (w n : Nat) : (bigEndian w n).length = w := by
  induction w generalizing n with
  | zero => rfl
  | succ w ih => simp [bigEndian, ih]

theorem ofBigEndian_append (bytes : List UInt8) (b : UInt8) :
    ofBigEndian (bytes ++ [b]) = 256 * ofBigEndian bytes + b.toNat := by
  simp [ofBigEndian]

theorem ofBigEndian_bigEndian (w n : Nat) (h : n < 256 ^ w) : ofBigEndian (bigEndian w n) = n := by
  induction w generalizing n with
  | zero => simp at h; simp [bigEndian, ofBigEndian, h]
  | succ w ih =>
    have hq : n / 256 < 256 ^ w := by
      rw [Nat.div_lt_iff_lt_mul (by decide)]; rwa [Nat.pow_succ] at h
    rw [bigEndian, ofBigEndian_append, ih _ hq, UInt8.toNat_ofNat']
    omega

theorem bigEndian_ofBigEndian (bytes : List UInt8) : bigEndian bytes.length (ofBigEndian bytes) = bytes := by
  induction bytes using List.reverseRecOn with
  | nil => rfl
  | append_singleton bytes b ih =>
    have hb := b.toNat_lt
    rw [ofBigEndian_append, List.length_append, List.length_singleton, bigEndian,
      show (256 * ofBigEndian bytes + b.toNat) / 256 = ofBigEndian bytes by omega, ih]
    congr 2
    apply UInt8.toNat_inj.mp
    rw [UInt8.toNat_ofNat']; omega

theorem ofBigEndian_lt (bytes : List UInt8) : ofBigEndian bytes < 256 ^ bytes.length := by
  induction bytes using List.reverseRecOn with
  | nil => decide
  | append_singleton bytes b ih =>
    have hb := b.toNat_lt
    rw [ofBigEndian_append, List.length_append, List.length_singleton, Nat.pow_succ]
    omega

theorem ofUtf8?_iff {bytes : List UInt8} {s : String} : ofUtf8? bytes = some s ↔ utf8 s = bytes := by
  rw [ofUtf8?, String.fromUTF8?, utf8, String.toUTF8_eq_toByteArray]
  constructor
  · intro h
    split at h
    · cases h; rfl
    · cases h
  · rintro rfl
    have hb : (ByteArray.mk s.toByteArray.data.toList.toArray) = s.toByteArray := by simp
    rw [dif_pos (by rw [hb]; exact s.isValidUTF8)]
    simp [String.fromUTF8]

/-! ## What a source delivers -/

/-- The source behind the next `n` bytes. -/
def Source.advance (s : Source) (n : Nat) : Source :=
  { s with rest := s.rest.drop n, position := s.position + n }

/-- The bytes are next in `s`, and `s'` is `s` behind them. -/
def Source.Reads (s : Source) (bytes : List UInt8) (s' : Source) : Prop :=
  s.rest = bytes ++ s'.rest ∧ s' = s.advance bytes.length

namespace Source

open InputStream (gather upTo exactly)

variable {s s' : Source} {bytes : List UInt8}

theorem reads_of_rest {rest : List UInt8} (h : s.rest = bytes ++ rest) :
    s.Reads bytes (s.advance bytes.length) := by
  refine ⟨?_, rfl⟩
  rw [h, advance, h, List.drop_left]

theorem reads_take {n : Nat} (h : n ≤ s.rest.length) : s.Reads (s.rest.take n) (s.advance n) := by
  have hreads := reads_of_rest (List.take_append_drop n s.rest).symm
  rwa [List.length_take, Nat.min_eq_left h] at hreads

theorem reads_nil : s.Reads [] s' ↔ s' = s := by
  constructor
  · rintro ⟨-, rfl⟩; rfl
  · rintro rfl; exact ⟨rfl, rfl⟩

theorem reads_append {b c : List UInt8} : s.Reads (b ++ c) s' ↔ ∃ t, s.Reads b t ∧ t.Reads c s' := by
  constructor
  · rintro ⟨hr, rfl⟩
    rw [List.append_assoc] at hr
    refine ⟨_, reads_of_rest hr, ?_, ?_⟩
    · rw [advance, hr, List.drop_left]
    · simp [advance, Nat.add_assoc]
  · rintro ⟨t, ⟨h1, rfl⟩, h2, rfl⟩
    refine ⟨?_, by simp [advance, Nat.add_assoc]⟩
    rw [h1, h2, List.append_assoc]

theorem Reads.unique {t : Source} (h : s.Reads bytes s') (k : s.Reads bytes t) : t = s' := by
  rw [h.2, k.2]

theorem advance_zero (s : Source) : s.advance 0 = s := rfl

theorem advance_advance (s : Source) (m n : Nat) : (s.advance m).advance n = s.advance (m + n) := by
  simp [advance, Nat.add_assoc]

theorem offset_advance (s : Source) (n : Nat) : (s.advance n).offset = s.offset.map (· + n) := by
  unfold Source.offset advance
  split <;> rfl

theorem grant_pos {want : Nat} (h : want ≠ 0) : 0 < s.grant want := by
  unfold grant; split <;> omega

theorem grant_le (want : Nat) : s.grant want ≤ want := by
  unfold grant; split <;> omega

theorem pull_eq {want : Nat} (h : s.rest ≠ []) :
    pull want s = .ok (s.rest.take (s.grant want)) (s.advance (min (s.grant want) s.rest.length)) := by
  unfold pull
  split
  · next he => exact absurd he h
  · simp only [advance, List.length_take, EStateM.Result.ok.injEq, Source.mk.injEq, and_true, true_and]
    rcases Nat.le_total (s.grant want) s.rest.length with hle | hle
    · rw [Nat.min_eq_left hle]
    · rw [Nat.min_eq_right hle, List.drop_length, List.drop_eq_nil_of_le hle]

/-- The loop brings all that is wanted; if that is not there, it uses up the input and ends or breaks. -/
theorem gather_eq (rounds want : Nat) (s : Source) (hr : want ≤ rounds) :
    gather rounds want s =
      if s.breaks = true ∧ s.rest.length < want then .error (.stream .broken) (s.advance s.rest.length)
      else .ok (s.rest.take want) (s.advance (min want s.rest.length)) := by
  induction rounds generalizing want s with
  | zero =>
    have h0 : want = 0 := by omega
    subst h0; simp [gather, pure, EStateM.pure, advance_zero]
  | succ rounds ih =>
    rw [gather]
    by_cases h0 : want = 0
    · subst h0; simp [pure, EStateM.pure, advance_zero]
    rw [if_neg h0, run_bind, show InputStream.pull want s = pull want s from rfl]
    cases he : s.rest with
    | nil =>
      have hw : 0 < want := by omega
      simp only [pull, he, List.length_nil, hw, and_true]
      cases hb : s.breaks
      · simp [h0, pure, EStateM.pure, advance_zero]
      · simp [h0, advance_zero]
    | cons b rest =>
      have hg := grant_pos h0 (s := s)
      have hgl := grant_le want (s := s)
      have hlen : 0 < s.rest.length := by rw [he]; simp
      have hne : (s.rest.take (s.grant want)).isEmpty = false := by
        rw [List.isEmpty_eq_false_iff, ← List.length_pos_iff, List.length_take]; omega
      rw [← he, pull_eq (by rw [he]; simp)]
      generalize hn : s.grant want = n at hg hgl hne
      simp only [hne, Bool.false_eq_true, if_false, List.length_take]
      rw [run_bind, ih _ _ (by omega), advance_advance, advance_advance]
      have hb : (s.advance (min n s.rest.length)).breaks = s.breaks := rfl
      have hl : (s.advance (min n s.rest.length)).rest.length = s.rest.length - min n s.rest.length := by
        simp [advance]
      rw [hb, hl]
      by_cases hc : s.breaks = true ∧ s.rest.length < want
      · have hall : min n s.rest.length + (s.rest.length - min n s.rest.length) = s.rest.length := by omega
        rw [if_pos hc, if_pos ⟨hc.1, by omega⟩, hall]
      · rw [if_neg hc, if_neg (fun h => hc ⟨h.1, by omega⟩)]
        simp only [pure, EStateM.pure, EStateM.Result.ok.injEq]
        refine ⟨?_, by congr 1; omega⟩
        rcases Nat.le_total n s.rest.length with hle | hle
        · simp only [advance, Nat.min_eq_left hle]
          rw [← List.take_add, show n + (want - n) = want by omega]
        · simp [advance, Nat.min_eq_right hle, List.take_of_length_le hle,
            List.take_of_length_le (Nat.le_trans hle hgl)]

theorem upTo_eq (n : Nat) (s : Source) :
    upTo n s = if s.breaks = true ∧ s.rest.length < n then .error (.stream .broken) (s.advance s.rest.length)
      else .ok (s.rest.take n) (s.advance (min n s.rest.length)) :=
  gather_eq n n s (Nat.le_refl n)

theorem upTo_iff {n : Nat} (hn : bytes.length = n) : upTo n s = .ok bytes s' ↔ s.Reads bytes s' := by
  subst hn
  rw [upTo_eq]
  by_cases hl : bytes.length ≤ s.rest.length
  · rw [if_neg (by omega), Nat.min_eq_left hl]
    constructor
    · intro h
      obtain ⟨hb, rfl⟩ := EStateM.Result.ok.inj h
      have hr : s.rest = bytes ++ s.rest.drop bytes.length := by
        conv_rhs => lhs; rw [← hb]
        exact (List.take_append_drop _ _).symm
      exact reads_of_rest hr
    · rintro ⟨hr, rfl⟩
      rw [hr, List.take_left]
  · constructor
    · intro h
      split at h
      · cases h
      · have := congrArg List.length (EStateM.Result.ok.inj h).1
        rw [List.length_take] at this; omega
    · rintro ⟨hr, -⟩
      rw [hr] at hl; simp at hl

theorem exactly_iff {n : Nat} : exactly n s = .ok bytes s' ↔ bytes.length = n ∧ s.Reads bytes s' := by
  rw [exactly, bind_ok_iff]
  constructor
  · rintro ⟨got, t, hu, h⟩
    by_cases hlt : got.length < n
    · rw [if_pos hlt] at h; cases h
    · rw [if_neg hlt] at h
      obtain ⟨rfl, rfl⟩ := pure_ok_iff.mp h
      have hlen : bytes.length = n := by
        rw [upTo_eq] at hu
        split at hu
        · cases hu
        · have := congrArg List.length (EStateM.Result.ok.inj hu).1
          rw [List.length_take] at this; omega
      exact ⟨hlen, (upTo_iff hlen).mp hu⟩
  · rintro ⟨hn, hr⟩
    refine ⟨bytes, s', (upTo_iff hn).mpr hr, ?_⟩
    rw [if_neg (by omega)]; rfl

end Source

/-! ## Readers -/

/-- The item has a wire form: a text is not too long for its length field. -/
def Item.Fits : Item → Prop
  | .text s => (utf8 s).length ≤ maxTextBytes
  | _ => True

variable {s s' : Source}

theorem offset_ok_iff {o : Option Nat} : offset s = .ok o s' ↔ o = s.offset ∧ s' = s :=
  pure_ok_iff

/-- A fixed-width reader: `ofNat` and `toNat` are the number behind `w` digits and its value. -/
theorem fixed_ok_iff {β : Type} (w : Nat) (ofNat : Nat → β) (toNat : β → Nat)
    (hlt : ∀ b, toNat b < 256 ^ w) (hof : ∀ b, ofNat (toNat b) = b)
    (hto : ∀ n, n < 256 ^ w → toNat (ofNat n) = n) {b : β} :
    (do return ofNat (ofBigEndian (← InputStream.exactly w)) : ReadM β) s = .ok b s' ↔
      s.Reads (bigEndian w (toNat b)) s' := by
  rw [bind_ok_iff]
  constructor
  · rintro ⟨bytes, t, he, h⟩
    obtain ⟨rfl, rfl⟩ := pure_ok_iff.mp h
    obtain ⟨rfl, hr⟩ := Source.exactly_iff.mp he
    rwa [hto _ (ofBigEndian_lt bytes), bigEndian_ofBigEndian]
  · intro hr
    refine ⟨_, s', Source.exactly_iff.mpr ⟨length_bigEndian _ _, hr⟩, ?_⟩
    rw [ofBigEndian_bigEndian _ _ (hlt b), hof]; rfl

theorem readU8_ok_iff {n : UInt8} : readU8 s = .ok n s' ↔ s.Reads (Item.u8 n).bytes s' := by
  rw [show (Item.u8 n).bytes = bigEndian 1 n.toNat by simp [Item.bytes, bigEndian]]
  exact fixed_ok_iff 1 UInt8.ofNat UInt8.toNat (fun b => b.toNat_lt) (fun b => by simp)
    (fun n hn => by simp; omega)

theorem readU16_ok_iff {n : UInt16} : readU16 s = .ok n s' ↔ s.Reads (Item.u16 n).bytes s' :=
  fixed_ok_iff 2 UInt16.ofNat UInt16.toNat (fun b => b.toNat_lt) (fun b => by simp)
    (fun n hn => by simp; omega)

theorem readU32_ok_iff {n : UInt32} : readU32 s = .ok n s' ↔ s.Reads (Item.u32 n).bytes s' :=
  fixed_ok_iff 4 UInt32.ofNat UInt32.toNat (fun b => b.toNat_lt) (fun b => by simp)
    (fun n hn => by simp; omega)

theorem readI64_ok_iff {n : Int64} : readI64 s = .ok n s' ↔ s.Reads (Item.i64 n).bytes s' :=
  fixed_ok_iff 8 (fun n => (UInt64.ofNat n).toInt64) (fun n => n.toUInt64.toNat)
    (fun b => b.toUInt64.toNat_lt) (fun b => by simp) (fun n hn => by simp; omega)

theorem readBool_ok_iff {b : Bool} : readBool s = .ok b s' ↔ s.Reads (Item.bool b).bytes s' := by
  have hbytes : (Item.bool b).bytes = (Item.u8 (if b then 1 else 0)).bytes := rfl
  rw [hbytes, ← readU8_ok_iff, readBool, bind_ok_iff]
  constructor
  · rintro ⟨o, t, ho, h⟩
    obtain ⟨rfl, rfl⟩ := offset_ok_iff.mp ho
    obtain ⟨n, u, hn, h⟩ := bind_ok_iff.mp h
    split at h
    · obtain ⟨rfl, rfl⟩ := pure_ok_iff.mp h; exact hn
    · obtain ⟨rfl, rfl⟩ := pure_ok_iff.mp h; exact hn
    · cases h
  · intro h
    refine ⟨_, _, offset_ok_iff.mpr ⟨rfl, rfl⟩, bind_ok_iff.mpr ⟨_, _, h, ?_⟩⟩
    cases b <;> rfl

theorem readHeader_ok_iff {h : Header} : readHeader s = .ok h s' ↔ s.Reads (Item.header h).bytes s' := by
  have hbytes : (Item.header h).bytes = (Item.u16 h.family).bytes ++ (Item.u16 h.member).bytes := rfl
  rw [hbytes, Source.reads_append, readHeader, bind_ok_iff]
  constructor
  · rintro ⟨f, t, hf, hm⟩
    obtain ⟨m, u, hm, hr⟩ := bind_ok_iff.mp hm
    obtain ⟨rfl, rfl⟩ := pure_ok_iff.mp hr
    exact ⟨t, readU16_ok_iff.mp hf, readU16_ok_iff.mp hm⟩
  · rintro ⟨t, hf, hm⟩
    exact ⟨_, t, readU16_ok_iff.mpr hf, bind_ok_iff.mpr ⟨_, s', readU16_ok_iff.mpr hm, rfl⟩⟩

theorem readText_ok_iff {x : String} :
    readText s = .ok x s' ↔ (Item.text x).Fits ∧ s.Reads (Item.text x).bytes s' := by
  simp only [Item.Fits, Item.bytes, maxTextBytes]
  rw [Source.reads_append, readText, bind_ok_iff]
  constructor
  · rintro ⟨n, t, hn, h⟩
    obtain ⟨o, u, ho, h⟩ := bind_ok_iff.mp h
    obtain ⟨rfl, rfl⟩ := offset_ok_iff.mp ho
    obtain ⟨bytes, u, hu, h⟩ := bind_ok_iff.mp h
    by_cases hlen : bytes.length = n.toNat
    · rw [if_neg (by simpa using hlen)] at h
      split at h
      · next y hy =>
        obtain ⟨rfl, rfl⟩ := pure_ok_iff.mp h
        rw [ofUtf8?_iff.mp hy, hlen]
        have := n.toNat_lt
        exact ⟨by simp [UInt32.size]; omega, _, readU32_ok_iff.mp hn, (Source.upTo_iff hlen).mp hu⟩
      · cases h
    · rw [if_pos (by simpa using hlen)] at h; cases h
  · rintro ⟨hfit, t, hn, hu⟩
    have hto : (UInt32.ofNat (utf8 x).length).toNat = (utf8 x).length := by
      simp [UInt32.size] at hfit ⊢; omega
    refine ⟨UInt32.ofNat (utf8 x).length, t, readU32_ok_iff.mpr (by simpa only [Item.bytes, hto] using hn), ?_⟩
    refine bind_ok_iff.mpr ⟨_, _, offset_ok_iff.mpr ⟨rfl, rfl⟩, ?_⟩
    refine bind_ok_iff.mpr ⟨_, _, (Source.upTo_iff hto.symm).mpr hu, ?_⟩
    rw [if_neg (by simpa using hto.symm), ofUtf8?_iff.mpr rfl]; rfl

/-- A reader gives an item exactly when the bytes of the item are next. -/
theorem read_iff {shape : Shape} {i : Item} :
    shape.read s = .ok i s' ↔ i.shape = shape ∧ i.Fits ∧ s.Reads i.bytes s' := by
  cases shape <;> rw [Shape.read, bind_ok_iff]
  case u8 => cases i <;> simp [Item.shape, Item.Fits, pure_ok_iff, readU8_ok_iff]
  case u16 => cases i <;> simp [Item.shape, Item.Fits, pure_ok_iff, readU16_ok_iff]
  case u32 => cases i <;> simp [Item.shape, Item.Fits, pure_ok_iff, readU32_ok_iff]
  case i64 => cases i <;> simp [Item.shape, Item.Fits, pure_ok_iff, readI64_ok_iff]
  case bool => cases i <;> simp [Item.shape, Item.Fits, pure_ok_iff, readBool_ok_iff]
  case text => cases i <;> simp [Item.shape, pure_ok_iff, readText_ok_iff]
  case header => cases i <;> simp [Item.shape, Item.Fits, pure_ok_iff, readHeader_ok_iff]

/-! ## The writer -/

theorem push_push (s : Sink) (b c : List UInt8) : (s.push b).push c = s.push (b ++ c) := by
  simp [Sink.push, Nat.add_assoc, ← Array.toList_inj]

namespace Sink

@[simp] theorem push_nil (s : Sink) : s.push [] = s := by
  simp [push]

@[simp] theorem capacity_push (s : Sink) (b : List UInt8) : (s.push b).capacity = s.capacity := rfl

@[simp] theorem size_bytes_push (s : Sink) (b : List UInt8) : (s.push b).bytes.size = s.bytes.size + b.length := by
  simp [push, ← Array.length_toList]

theorem room_le (s : Sink) (want : Nat) : s.room want ≤ want := by
  unfold room; split <;> omega

theorem room_add (s : Sink) (m n : Nat) : s.room m = min m (s.room (m + n)) := by
  unfold room; split <;> omega

theorem room_push (s : Sink) (b : List UInt8) (n : Nat) : (s.push b).room n = s.room (b.length + n) - b.length := by
  unfold room
  rw [capacity_push, size_bytes_push]
  split <;> omega

theorem grant_le (s : Sink) (want : Nat) : s.grant want ≤ s.room want := by
  unfold grant; split <;> omega

theorem grant_eq_zero_iff (s : Sink) (want : Nat) : s.grant want = 0 ↔ s.room want = 0 := by
  unfold grant; split <;> omega

/-- The loop around the writes fills the sink with the bytes that there is room for, in whatever pieces, and fails
if these are not all. -/
theorem putAll_run (rounds : Nat) (bytes : List UInt8) (s : Sink) (h : bytes.length ≤ rounds) :
    putAll rounds bytes s =
      if s.room bytes.length < bytes.length then .error (.stream .noRoom) (s.push (bytes.take (s.room bytes.length)))
      else .ok () (s.push bytes) := by
  induction rounds generalizing bytes s with
  | zero =>
    obtain rfl : bytes = [] := List.eq_nil_of_length_eq_zero (by omega)
    simp [putAll, pure, EStateM.pure]
  | succ rounds ih =>
    rw [putAll]
    cases hb : bytes.isEmpty with
    | true =>
      obtain rfl : bytes = [] := List.isEmpty_iff.mp hb
      simp [pure, EStateM.pure]
    | false =>
      have hpos : 0 < bytes.length := List.length_pos_iff.mpr (List.isEmpty_eq_false_iff.mp hb)
      have hroom := s.room_le bytes.length
      have hgrant := s.grant_le bytes.length
      have hzero := s.grant_eq_zero_iff bytes.length
      simp only [Bool.false_eq_true, if_false]
      rw [run_bind, put]
      generalize s.grant bytes.length = n at hgrant hzero
      by_cases hn : n = 0
      · rw [if_pos (by omega), hzero.mp hn, hn]
        rfl
      · -- the rest goes to a sink that has room for as many bytes less as were taken
        have hrest : (s.push (bytes.take n)).room (bytes.drop n).length = s.room bytes.length - n := by
          rw [room_push, List.length_take, List.length_drop, Nat.min_eq_left (by omega),
            show n + (bytes.length - n) = bytes.length by omega]
        simp only [if_neg hn]
        rw [ih _ _ (by rw [List.length_drop]; omega), hrest, push_push, push_push, List.take_append_drop,
          ← List.take_add, List.length_drop, show n + (s.room bytes.length - n) = s.room bytes.length by omega]
        by_cases hfull : s.room bytes.length < bytes.length
        · rw [if_pos hfull, if_pos (by omega)]
        · rw [if_neg hfull, if_neg (by omega)]

theorem write_run (bytes : List UInt8) (s : Sink) :
    write bytes s =
      if s.room bytes.length < bytes.length then .error (.stream .noRoom) (s.push (bytes.take (s.room bytes.length)))
      else .ok () (s.push bytes) :=
  putAll_run bytes.length bytes s (Nat.le_refl _)

/-- It makes no difference where bytes are split between two writes. -/
theorem write_append (b c : List UInt8) : (do write b; write c) = write (b ++ c) := by
  funext s
  have hadd := s.room_add b.length c.length
  have hroom := s.room_le (b.length + c.length)
  rw [run_bind, write_run, write_run, List.length_append]
  by_cases hb : s.room b.length < b.length
  · have hall : s.room (b.length + c.length) = s.room b.length := by omega
    rw [if_pos hb, if_pos (by omega), hall, List.take_append_of_le_length (by omega)]
  · rw [if_neg hb]
    simp only
    rw [write_run, room_push, push_push, push_push]
    by_cases hc : s.room (b.length + c.length) < b.length + c.length
    · have hfront : b.take (s.room (b.length + c.length)) = b := List.take_of_length_le (by omega)
      rw [if_pos hc, if_pos (by omega), List.take_append, hfront]
    · rw [if_neg hc, if_neg (by omega)]

end Sink

theorem write_eq {s : Sink} (h : s.capacity = none) (bytes : List UInt8) :
    Sink.write bytes s = .ok () (s.push bytes) := by
  rw [Sink.write_run, if_neg (by simp [Sink.room, h])]

/-- An item that has a wire form is written as its bytes, though not all at once. -/
theorem Item.write_eq_bytes {i : Item} (h : i.Fits) : i.write = Sink.write i.bytes := by
  cases i with
  | text x => exact (if_pos h).trans (Sink.write_append _ _)
  | header x => exact Sink.write_append _ _
  | _ => rfl

/-- Without a limit on room, the items that have a wire form are written, as their bytes. -/
theorem write_ok_iff {s s' : Sink} (h : s.capacity = none) {i : Item} :
    i.write s = .ok () s' ↔ i.Fits ∧ s' = s.push i.bytes := by
  by_cases hi : i.Fits
  · rw [Item.write_eq_bytes hi, write_eq h]
    exact ⟨fun e => by cases e; exact ⟨hi, rfl⟩, fun e => by rw [e.2]⟩
  · cases i with
    | text x =>
      have he : (Item.text x).write = throw (.invalid .textTooLong none) := if_neg hi
      rw [he]
      exact ⟨fun e => (by cases e), fun e => absurd e.1 hi⟩
    | _ => exact absurd trivial hi

end Wire

end ScriptCore
