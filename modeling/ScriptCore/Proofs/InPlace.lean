import ScriptCore.Proofs.ChainReader

/-!
# Reading into a cell that is in use

An object can read its state while others refer to it. A cell takes its kind and its first slot when both have been
read, and each further cell when that one is complete, so a read that fails on the way leaves it somewhere in between.
`Thread.readState_cell` says what is left, however the read ends.

What a cell held before does not matter: its old chain may be shared, lead into a cycle or back to the cell itself. The
new cells are linked one by one from the cell on, and none of them leads back to what was there.
-/
namespace ScriptCore

open Wire Wire.Source NestedM LoadM Store Chain

/-! ## Failures -/

section Failure

variable {α β : Type} {s : Store} {value : LoadM Value}

/-- If it fails, the objects of `s` are as before and all levels that were opened are closed. -/
def Spares (s : Store) (x : LoadM α) : Prop :=
  ∀ {m e m'}, s.Extends m.state.store → x m = .error e m' → s.Extends m'.state.store ∧ m'.depth = m.depth

theorem Frames.spares {x : LoadM α} (hx : Frames s x) : Spares s x := by
  intro m e m' hm h
  have hframe := hx m hm
  rw [h] at hframe
  exact hframe

theorem spares_change (f : Store → Store) : Spares s (change f) :=
  fun _ h => by cases h

theorem spares_bind {x : LoadM α} {f : α → LoadM β} (hx : Frames s x) (hf : ∀ a, Spares s (f a)) :
    Spares s (x >>= f) := by
  intro m e m' hm h
  obtain ⟨hs, hd⟩ := hx m hm
  rw [run_bind] at h
  cases hrun : x m with
  | error e' m₁ =>
    rw [hrun] at h hs hd
    cases h
    exact ⟨hs, hd⟩
  | ok a m₁ =>
    rw [hrun] at h hs hd
    obtain ⟨hs', hd'⟩ := hf a hs h
    exact ⟨hs', hd'.trans hd⟩

/-- A cell is filled in one step, when its kind and its first slot have been read. -/
theorem spares_readCell (hv : Frames s value) (c : CellId) : Spares s (readCell value c) := by
  refine spares_bind (frames_onSource _) fun start => spares_bind (frames_onSource _) fun byte => ?_
  cases CellKind.ofByte? byte with
  | none => exact (frames_throw _).spares
  | some kind => exact spares_bind hv fun v => spares_change _

theorem frames_readLink (hv : Frames s value) : Frames s (readLink value) := by
  refine frames_bind (frames_onSource _) fun start => frames_bind (frames_onSource _) fun h => ?_
  split
  · exact frames_pure _
  split
  · exact frames_make (fun c => ¬ s.Has (.cell c)) (fun _ => newCell_new) fun new hnew =>
      frames_bind (frames_readCell hv hnew) fun _ => frames_pure _
  · exact frames_throw _

end Failure

/-! ## Two streams -/

section Streams

variable {σ τ : Type} {R : σ → τ → Prop} [InputStream σ] [InputStream τ] {f : Option Nat → Option Nat}
  {value : LoadingM σ Value} {value' : LoadingM τ Value}

/-- A device can be behind the bytes that a source which delivers the same has read. -/
theorem exists_besides_of_reads {d : Device} {s : Source} {bytes : List UInt8} (h : d.toSource.Reads bytes s) :
    ∃ d₁, d.Advances bytes.length d₁ ∧ Besides id (d.position.map (· + d.rest.length)) s d₁ := by
  obtain ⟨hrest, rfl⟩ := h
  obtain ⟨d₁, hmoved, -⟩ := d.upTo_device bytes.length
  have hle : bytes.length ≤ d.toSource.rest.length := by
    rw [hrest, List.length_append]
    omega
  have hadvance := (besides_toSource d).advance movesAlong_id hmoved
  rw [Nat.min_eq_left hle] at hadvance
  exact ⟨d₁, hmoved, hadvance⟩

theorem follows_readLink (h : Tracks f R) (hv : Follows f (Abreast R) value value') :
    Follows f (Abreast R) (readLink value) (readLink value') := by
  refine offset_bind h fun start => follows_bind (follows_onSource h.readHeader) fun header => ?_
  split
  · exact follows_pure _
  split
  · exact follows_bind (follows_onStore _) fun new => follows_bind (follows_readCell h hv new) fun _ => follows_pure _
  · exact follows_throw _

end Streams

/-! ## Writing what was read -/

section Write

variable {r : Registry} {s t u : Store} {c : CellId} {l : List CellId} {cdr : Option CellId} {d : Nat}
  {bytes : List UInt8}

/-- Objects may be added after a cell was replaced. -/
theorem Replaced.mono {P Q : Value → List UInt8 → Prop} (h : Replaced P s t c l cdr bytes) (hc : s.Has (.cell c))
    (kept : t.Extends u) (imp : ∀ v bytes, P v bytes → Q v bytes) : Replaced Q s u c l cdr bytes := by
  obtain ⟨first, rest, hbytes, hcar, hmore⟩ := h.decoded
  have hcell : u.cell c = t.cell c := kept.cell (h.changes.has _ hc)
  refine ⟨⟨fun q hq => kept.has (h.changes.has q hq), ?_, fun q hq hne => ?_⟩, ?_, first, rest, ?_, ?_, ?_⟩
  · rw [hcell]
    exact h.changes.cell
  · exact sameAt_trans (h.changes.other q hq hne) (kept q (h.changes.has q hq)).2
  · exact h.chain.congr fun q hq => by rw [next, next, kept.cell (hmore.mem q hq).2.1]
  · rw [hcell]
    exact hbytes
  · rw [hcell]
    exact imp _ _ hcar
  · exact hmore.mono (fun _ => id) kept imp

/-- The state of a cell is written as the tree that the cell unfolds to, without the header. It opens no level, so the
tree may be one level deeper than a value. -/
theorem emits_writeState {x : Tree .first} {rs : List Ref} (h : t.Unfolds (some (.cell c)) x rs) (hfit : x.Fits)
    (hd : x.depth + d ≤ maxNesting + 1) :
    ∃ state, x.encode = (Item.header .cell).bytes ++ state ∧ Emits (t.writeState (.cell c)) d state := by
  cases h with
  | @cell _ _ x y xs ys hx hy =>
    simp only [Tree.depth] at hd
    have hcar := emits_writeValue (n := maxNesting) hx hfit.1 (d := d) (by omega) (by omega)
    obtain ⟨l, hends, hl⟩ := emits_writeTail (t.writeValue maxNesting) d hy hfit.2
      fun v z zs hz hzf hzd => emits_writeValue hz hzf (by omega) (by omega)
    have hc : Ends t.next c (c :: l) := ends_cons_iff.mpr ⟨rfl, hends⟩
    refine ⟨_, rfl, ?_⟩
    simp only [writeState, writeStateWith, cyclic_of_ends hc, Bool.false_eq_true, if_false, spine_of_ends hc,
      List.tail_cons]
    rw [← List.append_assoc]
    exact emits_bind (emits_bind (emits_kind (t.cell c).kind d) hcar) hl

/-- A replaced cell from which only cells and data can be reached unfolds to a tree. -/
theorem Replaced.exists_unfolds_core (h : Replaced (Parsed r d s t) s t c l l.head? bytes)
    (hcore : t.Core (some (.cell c))) : ∃ (x : Tree .first) (rs : List Ref), t.Unfolds (some (.cell c)) x rs := by
  refine h.exists_unfolds fun q hq => ?_
  obtain ⟨first, hfirst⟩ := h.mem q hq
  have hreach : t.Reaches (some (.cell c)) (.cell q) := reaches_spine (by rwa [spine_of_ends h.ends])
  refine hfirst.labelled.exists_unfolds (fun a ha => hcore a ?_) .first fun h => by cases h
  obtain ⟨p, hp, hpq⟩ := hreach
  obtain ⟨_, ⟨⟩, hqa⟩ := ha.of_car
  exact ⟨p, hp, hpq.trans hqa⟩

/-- Where a cell was read, it can be written again, as the bytes that it was made of and the end of the chain. -/
theorem Replaced.emits (h : Replaced (Parsed r d s t) s t c l l.head? bytes) (hcore : t.Core (some (.cell c))) {w : Nat}
    (hw : w ≤ d) : Emits (t.writeState (.cell c)) w (bytes ++ (Item.header .nil).bytes) := by
  obtain ⟨x, rs, hx⟩ := h.exists_unfolds_core hcore
  obtain ⟨hencode, -, hfit, hdepth⟩ := h.unfolds hx
  obtain ⟨state, hstate, hemits⟩ := emits_writeState (d := w) hx hfit (by omega)
  obtain rfl : state = bytes ++ (Item.header .nil).bytes := List.append_cancel_left (hstate.symm.trans hencode)
  exact hemits

end Write

/-! ## Calls of a thread -/

namespace Thread

/-- After a read into `c` that succeeded. The cell heads a chain with new cells `l`, made of the bytes. If only cells
and plain data can be reached from it, it leads to nothing that was there before, and writes the bytes that were read,
with as many levels open as there were then. -/
structure Renewed (r : Registry) (c : CellId) (t t' : Thread) (l : List CellId) (bytes : List UInt8) : Prop where
  replaced : Replaced (Labelled r t.store t'.store) t.store t'.store c l l.head? bytes
  ends : Ends t'.store.next c (c :: l)
  fresh : ∀ q ∈ l, ¬ t.store.Has (.cell q)
  core : r = .core → t'.store.Core (some (.cell c))
  apart : t'.store.Core (some (.cell c)) →
    ∀ q, t'.store.Reaches (some (.cell c)) q → q = .cell c ∨ ¬ t.store.Has q
  written : t'.store.Core (some (.cell c)) → t.writing ≤ t.reading → ∀ sink : Sink, sink.capacity = none →
    writeState (.cell c) sink t' = (.ok () (sink.push (bytes ++ (Item.header .nil).bytes)), t')

/-- After a read into `c` that failed with `e` in the link behind the cells `l`. The cell has the kind and the first
slot that were read. If no further cell was complete it is followed by what followed it before, else by `l`. -/
structure Broken (r : Registry) (c : CellId) (d : Device) (t t' : Thread) (e : SerialError) (l : List CellId)
    (bytes : List UInt8) : Prop where
  replaced : Replaced (Labelled r t.store t'.store) t.store t'.store c l
    (if l.isEmpty then (t.store.cell c).cdr else l.head?) bytes
  ends : l ≠ [] → Ends t'.store.next c (c :: l)
  fresh : ∀ q ∈ l, ¬ t.store.Has (.cell q)
  /-- The next link was read behind the bytes. -/
  stopped : ∃ s d₁ d₂, d.Advances bytes.length d₁ ∧ d.rest = bytes ++ d₁.rest ∧ s.Extends t'.store ∧
    readLink (r.readValue maxNesting) ⟨⟨s, d₁⟩, t.reading⟩ = .error e ⟨⟨t'.store, d₂⟩, t.reading⟩

variable {r : Registry} {c : CellId} {d : Device} {t : Thread} {e : SerialError}

theorem renewed_of_replaced {s : Store} {l : List CellId} {bytes : List UInt8} (hc : t.store.Has (.cell c))
    (h : Replaced (Parsed r t.reading t.store s) t.store s c l l.head? bytes) :
    Renewed r c t { t with store := s } l bytes := by
  obtain ⟨first, rest, -, -, hmore⟩ := h.decoded
  refine ⟨h.mono hc (.refl _) fun v bytes hv => hv.labelled, h.ends, fun q hq => (hmore.mem q hq).1, fun hr => ?_,
    fun hcore q hq => ?_, fun hcore hw sink hsink => ?_⟩
  · obtain ⟨x, rs, hx⟩ := h.exists_unfolds fun q hq => (h.mem q hq).elim fun _ hfirst => hfirst.core hr
    exact fun a ha => hx.data ha
  · obtain ⟨x, rs, hx⟩ := h.exists_unfolds_core hcore
    exact ((h.unfolds hx).2.1 q (hx.mem_iff.mpr hq)).imp_right fun hnew => hnew.1
  · have hrun := h.emits hcore hw sink hsink
    simp only [writeState, save, hrun]

theorem broken_of_replaced {s s' : Store} {l : List CellId} {bytes : List UInt8} {d₁ d₂ : Device}
    (hc : t.store.Has (.cell c)) (hs : s.Extends s')
    (h : Replaced (Parsed r t.reading t.store s) t.store s c l
      (if l.isEmpty then (t.store.cell c).cdr else l.head?) bytes)
    (hmoved : d.Advances bytes.length d₁) (hrest : d.rest = bytes ++ d₁.rest)
    (hlink : readLink (r.readValue maxNesting) ⟨⟨s, d₁⟩, t.reading⟩ = .error e ⟨⟨s', d₂⟩, t.reading⟩) :
    Broken r c d t { t with store := s' } e l bytes := by
  have hreplaced : Replaced (Labelled r t.store s') t.store s' c l
      (if l.isEmpty then (t.store.cell c).cdr else l.head?) bytes :=
    h.mono hc hs fun v bytes hv => hv.labelled.mono (fun _ => id) fun q _ hq => hs q hq
  obtain ⟨first, rest, -, -, hmore⟩ := h.decoded
  refine ⟨hreplaced, fun hl => ?_, fun q hq => (hmore.mem q hq).1, s, d₁, d₂, hmoved, hrest, hs, hlink⟩
  rw [if_neg (by simpa using hl)] at hreplaced
  exact hreplaced.ends

/-- A read into a cell, whatever the cell held before and whatever the stream is. No other object that was there
changes. If the read succeeds the cell is renewed, from bytes that end with the end of the chain. If it fails the cell
is as before, or it has what was complete before the failure. -/
theorem readState_cell (hr : r.HasCore) (hc : t.store.Has (.cell c)) (d : Device) :
    ∃ outcome s, readState r (.cell c) d t = (outcome, { t with store := s }) ∧
      (∀ q, t.store.Has q → s.Has q ∧ (q ≠ .cell c → t.store.SameAt s q)) ∧
      match outcome with
      | .ok _ d' => ∃ l bytes, d.rest = bytes ++ ((Item.header .nil).bytes ++ d'.rest) ∧
          Renewed r c t { t with store := s } l bytes
      | .error e d' =>
          (s.cell c = t.store.cell c ∧
            readCell (r.readValue maxNesting) c ⟨⟨t.store, d⟩, t.reading⟩ = .error e ⟨⟨s, d'⟩, t.reading⟩) ∨
          ∃ l bytes, Broken r c d t { t with store := s } e l bytes := by
  have htracks := tracks_besides movesAlong_id (d.position.map (· + d.rest.length))
  have hvalue := follows_readValue htracks r maxNesting
  have hparses := parses_readValue hr maxNesting
  have hframes := fun s => frames_readValue s r maxNesting
  set m : Nested Loading := ⟨⟨t.store, d.toSource⟩, t.reading⟩
  have hm : Abreast (Besides id (d.position.map (· + d.rest.length))) m ⟨⟨t.store, d⟩, t.reading⟩ :=
    ⟨rfl, besides_toSource d, rfl⟩
  have hload : readState r (.cell c) d t = load (readStateWith (r.readValue maxNesting) (.cell c)) d t := rfl
  cases hrun : readStateWith (r.readValue maxNesting) (.cell c) m with
  | ok _ m' =>
    obtain ⟨⟨⟨_, d'⟩, _⟩, hdevice, ⟨rfl, hsource, rfl⟩⟩ := (follows_readStateWith htracks hvalue (.cell c)).ok hm hrun
    obtain ⟨l, bytes, hbytes, hdepth, hreplaced⟩ := readStateWith_ok hparses hc hrun
    refine ⟨.ok () d', m'.state.store, ?_, fun q hq => ⟨hreplaced.changes.has q hq, hreplaced.changes.other q hq⟩, l,
      bytes, ?_, renewed_of_replaced hc hreplaced⟩
    · rw [hload]
      simp only [load, hdevice, hdepth]
      rfl
    · rw [← List.append_assoc, hsource.rest]
      exact hbytes.1
  | error e m' =>
    obtain ⟨e, m', hcell, h⟩ | ⟨l, bytes, m₁, hbytes, hdepth₁, hreplaced, ⟨m₂, -, h⟩ | ⟨e, m', hlink, h⟩⟩ :=
      readStateWith_runs (m := m) hparses hc
    -- the kind or the first slot could not be read
    · obtain ⟨hs, hdepth⟩ := spares_readCell (hframes t.store) c (.refl _) hcell
      obtain ⟨⟨⟨_, d'⟩, _⟩, hdevice, ⟨rfl, -, rfl⟩⟩ := (follows_readCell htracks hvalue c).error hm hcell
      refine ⟨.error e d', m'.state.store, ?_, fun q hq => ⟨hs.has hq, fun _ => (hs q hq).2⟩, .inl ⟨hs.cell hc, ?_⟩⟩
      · rw [hload]
        simp only [load, readStateWith, run_bind, hdevice, hdepth]
        rfl
      · rw [hdevice, hdepth]
    · rw [h] at hrun
      cases hrun
    -- a link could not be read; a device that is where the source was then fails in the same way
    · obtain ⟨hs, hdepth⟩ := (frames_readLink (hframes m₁.state.store)).spares (.refl _) hlink
      obtain ⟨⟨⟨_, d'⟩, _⟩, hdevice, ⟨rfl, -, rfl⟩⟩ := (follows_readStateWith htracks hvalue (.cell c)).error hm h
      obtain ⟨d₁, hmoved, hsource⟩ := exists_besides_of_reads (d := d) hbytes
      obtain ⟨⟨⟨_, d₂⟩, _⟩, hdevice₂, ⟨rfl, -, rfl⟩⟩ :=
        (follows_readLink htracks hvalue).error (t := ⟨⟨m₁.state.store, d₁⟩, m₁.depth⟩) ⟨rfl, hsource, rfl⟩ hlink
      have hrest : d.rest = bytes ++ d₁.rest := hbytes.1.trans (by rw [hsource.rest])
      rw [hdepth, hdepth₁] at hdevice₂
      have hbroken := broken_of_replaced (t := t) hc hs hreplaced hmoved hrest hdevice₂
      refine ⟨.error e d', m'.state.store, ?_, fun q hq => ?_, .inr ⟨l, bytes, hbroken⟩⟩
      · rw [hload]
        simp only [load, hdevice, hdepth, hdepth₁]
        rfl
      · exact ⟨hbroken.replaced.changes.has q hq, hbroken.replaced.changes.other q hq⟩

/-- A cell that is its own first slot and its own chain. One stream holds a block of two cells; in the other one the
kind of a third cell is unknown. -/
theorem readState_cell_loop :
    let t : Thread := { store := { cells := #[{ car := some (.cell ⟨0⟩), cdr := some ⟨0⟩ }] } }
    let cells : List UInt8 := [1, 0, 1, 0, 2, 1, 0, 1, 0, 0, 0, 0, 0, 255, 255]
    (∃ d' s l bytes, readState .core (.cell ⟨0⟩) (Device.slice (cells ++ [0, 0, 255, 255])) t =
        (.ok () d', { t with store := s }) ∧ Renewed .core ⟨0⟩ t { t with store := s } l bytes) ∧
    ∃ e d' s l bytes, readState .core (.cell ⟨0⟩) (Device.slice (cells ++ [0, 1, 0, 0, 7])) t =
        (.error e d', { t with store := s }) ∧
      Broken .core ⟨0⟩ (.slice (cells ++ [0, 1, 0, 0, 7])) t { t with store := s } e l bytes := by
  intro t cells
  have hc : t.store.Has (.cell ⟨0⟩) := by decide
  constructor
  · have hok : (match (readState .core (.cell ⟨0⟩) (Device.slice (cells ++ [0, 0, 255, 255])) t).1 with
        | .ok _ _ => true
        | .error _ _ => false) = true := by decide +kernel
    obtain ⟨outcome, s, hrun, -, hleft⟩ :=
      readState_cell Registry.hasCore_core hc (.slice (cells ++ [0, 0, 255, 255]))
    rw [hrun] at hok
    cases outcome with
    | error e d' => cases hok
    | ok _ d' =>
      obtain ⟨l, bytes, -, hrenewed⟩ := hleft
      exact ⟨d', s, l, bytes, hrun, hrenewed⟩
  · have herror : (match (readState .core (.cell ⟨0⟩) (Device.slice (cells ++ [0, 1, 0, 0, 7])) t).1 with
        | .ok _ _ => false
        | .error _ _ => true) = true := by decide +kernel
    have hcell : (match readCell (Registry.core.readValue maxNesting) ⟨0⟩
        ⟨⟨t.store, Device.slice (cells ++ [0, 1, 0, 0, 7])⟩, t.reading⟩ with
        | .ok _ _ => true
        | .error _ _ => false) = true := by decide +kernel
    obtain ⟨outcome, s, hrun, -, hleft⟩ :=
      readState_cell Registry.hasCore_core hc (.slice (cells ++ [0, 1, 0, 0, 7]))
    rw [hrun] at herror
    cases outcome with
    | ok _ d' => cases herror
    | error e d' =>
      obtain ⟨-, hfailed⟩ | ⟨l, bytes, hbroken⟩ := hleft
      · rw [hfailed] at hcell
        cases hcell
      · exact ⟨e, d', s, l, bytes, hrun, hbroken⟩

end Thread

end ScriptCore
