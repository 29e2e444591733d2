import Mathlib.Data.Set.Finite.Basic
import ScriptCore.Proofs.Reader

/-!
# What can be written

The writer finds cycles through second slots by a race and all other cycles by its limit on nesting, and counts
levels that it has to close again on every way out. What comes of it is said here without levels and races: a
value can be written if what can be reached from it has no cycle, nothing in it refuses to be written, its texts
fit, and it is not nested too deeply (`toBytes_ok_iff`). Neither limit of the functions that write is ever what
ends them (`writeValue_congr`, `extent_decided`), and what a thread has written and read before makes no
difference (`toBytes_after`).
-/
namespace ScriptCore

open Wire

namespace Store

variable {s t : Store} {v : Value}

/-! ## Depth -/

/-- How deeply a value is nested: nil and atoms once, a chain of cells once more than the deepest of its first
slots. -/
inductive HasDepth (s : Store) : Value → Nat → Prop
  | nil : HasDepth s none 1
  | atom (a : AtomId) : HasDepth s (some (.atom a)) 1
  | last {c : CellId} {n : Nat} (h : (s.cell c).cdr = none) (car : HasDepth s (s.cell c).car n) :
      HasDepth s (some (.cell c)) (1 + n)
  | cons {c d : CellId} {n m : Nat} (h : (s.cell c).cdr = some d) (car : HasDepth s (s.cell c).car n)
      (cdr : HasDepth s (some (.cell d)) (1 + m)) : HasDepth s (some (.cell c)) (1 + max n m)

theorem HasDepth.unique {n m : Nat} (h : s.HasDepth v n) (k : s.HasDepth v m) : n = m := by
  induction h generalizing m with
  | nil => cases k; rfl
  | atom => cases k; rfl
  | last hl _ ih =>
    cases k with
    | last _ car => rw [ih car]
    | cons hl' => rw [hl] at hl'; cases hl'
  | cons hl _ _ ihcar ihcdr =>
    cases k with
    | last hl' => rw [hl] at hl'; cases hl'
    | cons hl' car cdr =>
      rw [hl] at hl'
      cases hl'
      have h₁ := ihcar car
      have h₂ := ihcdr cdr
      omega

theorem hasDepth_of_unfolds {p : Place} {x : Tree p} {rs : List Ref} (h : s.Unfolds v x rs) : s.HasDepth v x.depth := by
  induction h with
  | nil => exact .nil
  | leaf => exact .atom _
  | @cell _ c x y _ _ _ hy ihx ihy =>
    cases hl : (s.cell c).cdr with
    | none =>
      rw [hl] at hy
      cases hy
      rw [Tree.depth, Tree.depth, show max (x.depth + 1) 1 = 1 + x.depth by omega]
      exact .last hl ihx
    | some d =>
      have hpos := y.depth_pos
      rw [hl, show y.depth = 1 + (y.depth - 1) by omega] at ihy
      rw [Tree.depth, show max (x.depth + 1) y.depth = 1 + max x.depth (y.depth - 1) by omega]
      exact .cons hl ihx ihy

/-- A value that has a depth and holds nothing but plain data unfolds to a tree of that depth. In a second slot
there is no atom. -/
theorem unfolds_of_hasDepth {n : Nat} (h : s.HasDepth v n) (hc : s.Core v) (p : Place)
    (hp : p = .second → ∀ a, v ≠ some (.atom a)) :
    ∃ (x : Tree p) (rs : List Ref), s.Unfolds v x rs ∧ x.depth = n := by
  induction h generalizing p with
  | nil => exact ⟨.nil, [], .nil, rfl⟩
  | atom a =>
    cases p with
    | first =>
      obtain ⟨d, hd⟩ := hc a (Reaches.refl s _)
      exact ⟨.leaf d, _, .leaf hd, rfl⟩
    | second => exact absurd rfl (hp rfl a)
  | @last c n hl _ ih =>
    obtain ⟨x, xs, hx, hxd⟩ := ih (fun a ha => hc a ha.of_car) .first (by rintro ⟨⟩)
    have hnil : s.Unfolds (.ofLink (s.cell c).cdr) (.nil (p := .second)) [] := by rw [hl]; exact .nil
    exact ⟨_, _, .cell hx hnil, by simp only [Tree.depth]; omega⟩
  | @cons c d n m hl _ _ ihcar ihcdr =>
    obtain ⟨x, xs, hx, hxd⟩ := ihcar (fun a ha => hc a ha.of_car) .first (by rintro ⟨⟩)
    have hcdr : s.Core (some (.cell d)) := fun a ha => hc a (Reaches.of_cdr (by rw [hl]; exact ha))
    obtain ⟨y, ys, hy, hyd⟩ := ihcdr hcdr .second (by rintro - a ⟨⟩)
    have hy' : s.Unfolds (.ofLink (s.cell c).cdr) y ys := by rw [hl]; exact hy
    exact ⟨_, _, .cell hx hy', by simp only [Tree.depth]; omega⟩

theorem finite_reaches (hv : s.Covers v) : Finite { r // s.Reaches v r } := by
  let all := (List.range s.cells.size).map (fun i => Ref.cell ⟨i⟩) ++
    (List.range s.atoms.size).map (fun i => Ref.atom ⟨i⟩)
  refine (List.finite_toSet all).subset ?_
  intro r hr
  have hr := hv r hr
  rcases r with ⟨⟨i⟩⟩ | ⟨⟨i⟩⟩ <;> simpa [all, Has] using hr

theorem Acyclic.wellFounded (ha : s.Acyclic v) (hv : s.Covers v) :
    WellFounded fun q r : { r // s.Reaches v r } => Relation.TransGen s.Link r.1 q.1 := by
  have hfinite := finite_reaches hv
  have htrans : IsTrans { r // s.Reaches v r } fun q r => Relation.TransGen s.Link r.1 q.1 :=
    ⟨fun _ _ _ h k => k.trans h⟩
  have hirrefl : Std.Irrefl fun q r : { r // s.Reaches v r } => Relation.TransGen s.Link r.1 q.1 :=
    ⟨fun r h => ha r.1 r.2 h⟩
  exact Finite.wellFounded_of_trans_of_irrefl _

/-- Without cycles there is a depth, by induction along the links. -/
theorem exists_hasDepth (hv : s.Covers v) (ha : s.Acyclic v) : ∃ n, s.HasDepth v n := by
  have hall : ∀ r : { r // s.Reaches v r }, ∃ n, s.HasDepth (some r.1) n := by
    intro r
    induction r using (ha.wellFounded hv).induction with
    | _ r ih =>
      obtain ⟨r, hr⟩ := r
      cases r with
      | atom a => exact ⟨1, .atom a⟩
      | cell c =>
        have hcar : ∃ n, s.HasDepth (s.cell c).car n := by
          cases hc : (s.cell c).car with
          | none => exact ⟨1, .nil⟩
          | some q => exact ih ⟨q, hr.tail (.car hc)⟩ (.single (.car hc))
        obtain ⟨n, hn⟩ := hcar
        cases hl : (s.cell c).cdr with
        | none => exact ⟨_, .last hl hn⟩
        | some d =>
          obtain ⟨m, hm⟩ := ih ⟨.cell d, hr.tail (.cdr hl)⟩ (.single (.cdr hl))
          have hm' : s.HasDepth (some (.cell d)) (1 + (m - 1)) := by
            have hpos : 0 < m := by cases hm <;> omega
            rwa [show 1 + (m - 1) = m by omega]
          exact ⟨_, .cons hl hn hm'⟩
  cases v with
  | none => exact ⟨1, .nil⟩
  | some r => exact hall ⟨r, Reaches.refl s r⟩

/-! ## What can be written -/

/-- Nothing that can be reached from the value lacks a header. -/
def Serializable (s : Store) (v : Value) : Prop :=
  ∀ r, s.Reaches v r → (s.header? r).isSome

/-- All texts and names that can be reached from the value are short enough. -/
def TextsFit (s : Store) (v : Value) : Prop :=
  ∀ a x, s.Reaches v (.atom a) → s.atom a = .datum x → x.item.Fits

theorem Plain.core (hp : s.Plain v) (h : s.Serializable v) : s.Core v := by
  intro a ha
  have hh := h _ ha
  cases hx : s.atom a with
  | datum x => exact ⟨x, rfl⟩
  | builtin b => simp [header?, hx, Atom.header?] at hh
  | host o => simp [header?, hx, Atom.header?, hp a o ha hx] at hh

theorem serializable_of_core (h : s.Core v) : s.Serializable v := by
  intro r hr
  cases r with
  | cell c => rfl
  | atom a =>
    obtain ⟨x, hx⟩ := h a hr
    rw [header?, hx]
    rfl

theorem fits_iff {p : Place} {x : Tree p} {rs : List Ref} (h : s.Unfolds v x rs) : x.Fits ↔ s.TextsFit v := by
  have hrs : x.Fits ↔ ∀ a d, Ref.atom a ∈ rs → s.atom a = .datum d → d.item.Fits := by
    induction h with
    | nil => simp [Tree.Fits]
    | @leaf a d ha =>
      constructor
      · intro hfit b e hb he
        cases List.mem_singleton.mp hb
        rw [ha] at he; cases he; exact hfit
      · intro hall
        exact hall a d (by simp) ha
    | @cell _ c x y xs ys _ _ ihx ihy =>
      rw [Tree.Fits, ihx, ihy]
      constructor
      · intro hall a d ha
        rw [List.mem_cons, List.mem_append] at ha
        rcases ha with ha | ha | ha
        · cases ha
        · exact hall.1 a d ha
        · exact hall.2 a d ha
      · intro hall
        exact ⟨fun a d ha => hall a d (by simp [ha]), fun a d ha => hall a d (by simp [ha])⟩
  rw [hrs]
  simp only [TextsFit, h.mem_iff]

theorem toBytes_ok_iff (hp : s.Plain v) : (∃ bytes, s.toBytes v = .ok bytes) ↔
    s.Acyclic v ∧ s.Serializable v ∧ s.TextsFit v ∧ ∃ n, s.HasDepth v n ∧ n ≤ maxNesting := by
  constructor
  · intro ⟨bytes, hb⟩
    obtain ⟨x, rs, hx, hfit, hd, -⟩ := (toBytes_iff hp).mp hb
    have hcore : s.Core v := fun a ha => hx.data ha
    exact ⟨hx.acyclic, serializable_of_core hcore, (fits_iff hx).mp hfit, _, hasDepth_of_unfolds hx, hd⟩
  · intro ⟨_, hs, hfit, n, hn, hmax⟩
    obtain ⟨x, rs, hx, hxd⟩ := unfolds_of_hasDepth hn (hp.core hs) .first (by rintro ⟨⟩)
    exact ⟨x.encode, (toBytes_iff hp).mpr ⟨x, rs, hx, (fits_iff hx).mpr hfit, by omega, rfl⟩⟩

/-! ## Limits and other stores make no difference

Two functions for the values inside are used at the depth at which the object is written, so they need to agree
there only. The first one is for `s`, the second one for a store `t` that keeps the objects of `s`. -/

section Congr

open NestedM SaveM

variable {f g : Value → SaveM Unit} {d : Nat}

/-- With `d` levels open the two do the same with `v`. -/
def Agree (f g : Value → SaveM Unit) (d : Nat) (v : Value) : Prop :=
  ∀ m : Nested Sink, m.depth = d → g v m = f v m

theorem bind_run_congr {α : Type} {x y : SaveM α} {k l : α → SaveM Unit} {m : Nested Sink} (hx : y m = x m)
    (hk : ∀ a m', x m = .ok a m' → l a m' = k a m') : (y >>= l) m = (x >>= k) m := by
  rw [run_bind, run_bind, hx]
  cases hm : x m with
  | error e m' => rfl
  | ok a m' => exact hk a m' hm

theorem writeCell_congr {c : CellId} (hc : t.cell c = s.cell c) (hv : Agree f g d (s.cell c).car) {m : Nested Sink}
    (hm : m.depth = d) : t.writeCell g c m = s.writeCell f c m := by
  unfold writeCell
  rw [hc]
  refine bind_run_congr rfl ?_
  intro _ m' h
  exact hv m' (((keeps_item _).ok h).trans hm)

theorem writeTail_congr (hk : ∀ v, Keeps (f v)) {l : List CellId}
    (hl : ∀ c ∈ l, t.cell c = s.cell c ∧ Agree f g d (s.cell c).car) {m : Nested Sink} (hm : m.depth = d) :
    t.writeTail g l m = s.writeTail f l m := by
  induction l generalizing m with
  | nil => rfl
  | cons c l ih =>
    obtain ⟨hc, hv⟩ := hl c (by simp)
    refine bind_run_congr rfl fun _ m₁ h₁ => ?_
    have e₁ := ((keeps_item _).ok h₁).trans hm
    refine bind_run_congr (writeCell_congr hc hv e₁) fun _ m₂ h₂ => ?_
    exact ih (fun b hb => hl b (by simp [hb])) (((keeps_writeCell hk c).ok h₂).trans e₁)

theorem writeFields_congr (hk : ∀ v, Keeps (f v)) {l : List Field} (hl : ∀ v, .value v ∈ l → Agree f g d v)
    {m : Nested Sink} (hm : m.depth = d) : writeFields g l m = writeFields f l m := by
  induction l generalizing m with
  | nil => rfl
  | cons x l ih =>
    have hrest : ∀ v, .value v ∈ l → Agree f g d v := fun v hv => hl v (by simp [hv])
    cases x with
    | item i => exact bind_run_congr rfl fun _ m' h => ih hrest (((keeps_item _).ok h).trans hm)
    | value v =>
      exact bind_run_congr (hl v (by simp) m hm) fun _ m' h => ih hrest (((hk v).ok h).trans hm)

theorem writeStateWith_congr (h : s.Extends t) {r : Ref} (hr : s.Covers (some r)) (hk : ∀ v, Keeps (f v))
    (hfg : ∀ v, s.Covers v → Agree f g d v) {m : Nested Sink} (hm : m.depth = d) :
    t.writeStateWith g r m = s.writeStateWith f r m := by
  cases r with
  | cell c =>
    have hcell : ∀ b ∈ s.spine c, t.cell b = s.cell b ∧ Agree f g d (s.cell b).car := by
      intro b hb
      have hcover := hr.of_reaches (reaches_spine hb)
      exact ⟨h.cell hcover.self, hfg _ hcover.car⟩
    have hcyclic : t.cyclic c = s.cyclic c := by rw [cyclic, cyclic, extent_extends h hr]
    by_cases hc : s.cyclic c = true
    · rw [show t.writeStateWith g (.cell c) = throw (.invalid .cyclic none) from if_pos (hcyclic.trans hc),
        show s.writeStateWith f (.cell c) = throw (.invalid .cyclic none) from if_pos hc]
    · rw [show t.writeStateWith g (.cell c) = _ from if_neg (by rwa [hcyclic]),
        show s.writeStateWith f (.cell c) = _ from if_neg hc, spine_extends h hr]
      refine bind_run_congr (writeCell_congr (h.cell hr.self) (hfg _ hr.car) hm) fun _ m₁ h₁ => ?_
      exact writeTail_congr hk (fun b hb => hcell b (List.mem_of_mem_tail hb)) (((keeps_writeCell hk c).ok h₁).trans hm)
  | atom a =>
    simp only [writeStateWith, h.atom hr.self]
    cases ho : s.atom a with
    | datum x => rfl
    | builtin b => rfl
    | host o =>
      by_cases hrecord : o.type.record.isSome = true
      · simp only [hrecord, if_true]
        refine writeFields_congr hk (fun v hv => hfg v ?_) hm
        cases v with
        | none => exact covers_none s
        | some q => exact hr.of_reaches ((Reaches.refl s _).tail (.field ho hv))
      · simp only [hrecord, if_false, Bool.false_eq_true]

theorem level_congr {x y : SaveM Unit} {m : Nested Sink}
    (h : m.depth < maxNesting → y { m with depth := m.depth + 1 } = x { m with depth := m.depth + 1 }) :
    level y m = level x m := by
  unfold level
  split
  · rfl
  · next hd => rw [h (Nat.not_le.mp hd)]

theorem writeValue_refused (s : Store) (n : Nat) (v : Value) {m : Nested Sink} (h : maxNesting ≤ m.depth) :
    s.writeValue n v m = .error (.tooDeep maxNesting) m := by
  cases n with
  | zero => rfl
  | succ n => cases v <;> exact if_pos h

/-- Two bounds on nesting that both leave room for all levels that may be opened give the same, and so do two
stores of which one keeps the other. -/
theorem writeValue_congr (h : s.Extends t) {n n' : Nat} {v : Value} (hv : s.Covers v) {m : Nested Sink}
    (hn : maxNesting ≤ n + m.depth) (hn' : maxNesting ≤ n' + m.depth) : t.writeValue n' v m = s.writeValue n v m := by
  induction n generalizing n' v m with
  | zero =>
    rw [writeValue_refused s 0 v (by omega), writeValue_refused t n' v (by omega)]
  | succ n ih =>
    cases n' with
    | zero => rw [writeValue_refused s (n + 1) v (by omega), writeValue_refused t 0 v (by omega)]
    | succ n' =>
      cases v with
      | none => rfl
      | some r =>
        refine level_congr fun hd => ?_
        have hheader : t.header? r = s.header? r := by
          cases r with
          | cell c => rfl
          | atom a => rw [header?, header?, h.atom hv.self]
        have htype : t.typeName r = s.typeName r := by
          cases r with
          | cell c => rfl
          | atom a => rw [typeName, typeName, h.atom hv.self]
        simp only [writeObject, hheader, htype]
        cases s.header? r with
        | none => rfl
        | some header =>
          refine bind_run_congr rfl fun _ m' hm' => ?_
          have hdepth : m'.depth = m.depth + 1 := (keeps_item _).ok hm'
          refine writeStateWith_congr h hv (keeps_writeValue s n) (fun w hw m'' hm'' => ?_) hdepth
          exact ih hw (by omega) (by omega)

end Congr

end Store

/-! ## Earlier calls make no difference -/

namespace Thread

open Store NestedM

/-- What may be asked of a thread, in this order or any other. -/
inductive Request where
  | serialize (v : Value) (sink : Sink)
  | writeState (r : Ref) (sink : Sink)
  | toBytes (v : Value)
  | deserialize (r : Registry) (source : Source)
  | ofBytes (r : Registry) (bytes : List UInt8)

/-- What a thread is left with, however the call ends. -/
def Request.run (t : Thread) : Request → Thread
  | .serialize v sink => (Thread.serialize v sink t).2
  | .writeState r sink => (Thread.writeState r sink t).2
  | .toBytes v => (Thread.toBytes v t).2
  | .deserialize r source => (Thread.deserialize r source t).2
  | .ofBytes r bytes => (Thread.ofBytes r bytes t).2

/-- No level is open, and the objects of `s` are as they were. -/
structure Idle (s : Store) (t : Thread) : Prop where
  store : s.Extends t.store
  writing : t.writing = 0
  reading : t.reading = 0

variable {α : Type} {s : Store} {t : Thread}

theorem Idle.save {x : Store → SaveM α} (h : Idle s t) (hx : ∀ u, Keeps (x u)) (sink : Sink) :
    Idle s (save x sink t).2 := by
  have hk := hx t.store ⟨sink, t.writing⟩
  unfold Thread.save
  split
  all_goals
    next hn =>
    rw [hn] at hk
    exact ⟨h.store, hk.trans h.writing, h.reading⟩

theorem Idle.load {x : LoadM α} (h : Idle s t) (hx : Frames s x) (source : Source) :
    Idle s (load x source t).2 := by
  obtain ⟨hs, hd⟩ := hx ⟨⟨t.store, source⟩, t.reading⟩ h.store
  unfold Thread.load
  split
  all_goals
    next hn =>
    rw [hn] at hs hd
    exact ⟨hs, h.writing, hd.trans h.reading⟩

theorem toBytes_snd (v : Value) (t : Thread) : (toBytes v t).2 = (serialize v {} t).2 := by
  simp only [toBytes, bind, StateT.bind]
  rcases serialize v {} t with ⟨_ | _, t'⟩ <;> rfl

theorem ofBytes_snd (r : Registry) (bytes : List UInt8) (t : Thread) :
    (ofBytes r bytes t).2 = (deserialize r (.ofBytes .cursor bytes) t).2 := by
  simp only [ofBytes, bind, StateT.bind]
  rcases deserialize r (Source.ofBytes .cursor bytes) t with ⟨⟨v, source⟩ | _, t'⟩
  · dsimp only; cases source.rest <;> rfl
  · rfl

theorem Idle.request (h : Idle s t) (q : Request) : Idle s (q.run t) := by
  cases q with
  | serialize v sink => exact h.save (fun u => keeps_writeValue u maxNesting v) sink
  | writeState r sink => exact h.save (fun u => keeps_writeStateWith (keeps_writeValue u maxNesting) r) sink
  | toBytes v =>
    rw [Request.run, toBytes_snd]
    exact h.save (fun u => keeps_writeValue u maxNesting v) {}
  | deserialize r source => exact h.load (frames_readValue s r maxNesting) source
  | ofBytes r bytes =>
    rw [Request.run, ofBytes_snd]
    exact h.load (frames_readValue s r maxNesting) _

theorem Idle.requests (h : Idle s t) (l : List Request) : Idle s (l.foldl Request.run t) := by
  induction l generalizing t with
  | nil => exact h
  | cons q l ih => exact ih (h.request q)

theorem Idle.toBytes {v : Value} (h : Idle s t) (hv : s.Covers v) : (Thread.toBytes v t).1 = s.toBytes v := by
  have hrun : t.store.serialize v ⟨{}, 0⟩ = s.serialize v ⟨{}, 0⟩ :=
    writeValue_congr h.store hv (Nat.le_refl _) (Nat.le_refl _)
  rw [Store.toBytes, toBytes_fst, toBytes_fst, h.writing, hrun]

end Thread

/-- What can be written. The first part says when writing succeeds, where a structure without cycles has one
depth; the second that no bound inside the writer ever ends it; the third that it does not matter what the thread
has done before. -/
theorem toBytes_domain {s : Store} {v : Value} (hv : s.Covers v) (hp : s.Plain v) :
    (((∃ bytes, s.toBytes v = .ok bytes) ↔
        s.Acyclic v ∧ s.Serializable v ∧ s.TextsFit v ∧ ∃ n, s.HasDepth v n ∧ n ≤ 256) ∧
      (s.Acyclic v → ∃ n, s.HasDepth v n ∧ ∀ m, s.HasDepth v m → m = n)) ∧
    ((∀ n m, maxNesting ≤ n + m.depth → s.writeValue n v m = s.serialize v m) ∧
      ∀ c bound, s.cells.size ≤ bound → Chain.extent bound s.next c = s.extent c) ∧
    ∀ l : List Thread.Request, (Thread.toBytes v (l.foldl Thread.Request.run { store := s })).1 = s.toBytes v := by
  refine ⟨⟨Store.toBytes_ok_iff hp, ?_⟩, ⟨?_, ?_⟩, ?_⟩
  · intro ha
    obtain ⟨n, hn⟩ := Store.exists_hasDepth hv ha
    exact ⟨n, hn, fun m hm => hm.unique hn⟩
  · intro n m hn
    exact Store.writeValue_congr (.refl s) hv (Nat.le_add_right _ _) hn
  · intro c bound hbound
    exact Chain.extent_decided s.bounded hbound c
  · intro l
    have hidle : Thread.Idle s { store := s } := ⟨.refl s, rfl, rfl⟩
    exact (hidle.requests l).toBytes hv

/-- A list in front of a cell that holds itself. -/
def listAndLoop : Store where
  cells := #[{ car := some (.atom ⟨0⟩) }, { car := some (.cell ⟨1⟩) }]
  atoms := #[.datum (.boolean true)]

/-- The loop cannot be written. The list can, also after failures. -/
theorem toBytes_domain_listAndLoop :
    (∃ bytes, listAndLoop.toBytes (some (.cell ⟨0⟩)) = .ok bytes) ∧ listAndLoop.HasDepth (some (.cell ⟨0⟩)) 2 ∧
    (¬ ∃ bytes, listAndLoop.toBytes (some (.cell ⟨1⟩)) = .ok bytes) ∧
    (Thread.toBytes (some (.cell ⟨0⟩)) ([.toBytes (some (.cell ⟨1⟩)), .ofBytes .core [0, 1]].foldl Thread.Request.run
      { store := listAndLoop })).1 = listAndLoop.toBytes (some (.cell ⟨0⟩)) := by
  have hlink : ∀ q r, listAndLoop.Link q r → listAndLoop.Has r := by
    intro q r hl
    cases hl with
    | @car c _ h => rcases c with ⟨_ | _ | i⟩ <;> simp [listAndLoop, Store.cell] at h <;> subst h <;> decide
    | @cdr c _ h => rcases c with ⟨_ | _ | i⟩ <;> simp [listAndLoop, Store.cell] at h
    | @field a o _ ha => rcases a with ⟨_ | i⟩ <;> simp [listAndLoop, Store.atom] at ha
  have hcover : ∀ i, i < 2 → listAndLoop.Covers (some (.cell ⟨i⟩)) := by
    intro i hi r hr
    exact hr.induction (fun _ e => by cases e; exact hi) fun q r _ hl => hlink q r hl
  have hplain : ∀ v, listAndLoop.Plain v := by
    intro v a o _ ho
    rcases a with ⟨_ | i⟩ <;> simp [listAndLoop, Store.atom] at ho
  have hloop : listAndLoop.Link (.cell ⟨1⟩) (.cell ⟨1⟩) := .car rfl
  refine ⟨?_, .last (n := 1) rfl (.atom _), ?_, ?_⟩
  · exact ⟨[0, 1, 0, 0, 0, 0, 1, 0, 2, 1, 0, 0, 255, 255], by decide +kernel⟩
  · rw [(toBytes_domain (hcover 1 (by decide)) (hplain _)).1.1]
    intro h
    exact h.1 _ (Store.Reaches.refl _ _) (.single hloop)
  · exact (toBytes_domain (hcover 0 (by decide)) (hplain _)).2.2 _

end ScriptCore
