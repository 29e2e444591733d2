import Mathlib
import ScriptCore.Proofs.Balance

/-!
# Destruction is precise

Letting go works off a queue in which a cell may stand several times. It comes to an end (`rounds_drain`), since a
cell that puts others into the queue does not hold them any more, and it only takes things away (`Shrinks`).

With balanced books no object that can be reached from outside is destroyed (`Balanced.alive_of_reachable`), and in
a pool without cycles all others are: going from holder to holder leads outside, as there are finitely many cells
(`Balanced.reachable_of_alive`).

Every step of a client changes the pool in a way that keeps the books, with what it has replaced held from
outside (`Holdings.prepares_change`), and ends by letting go of that (`Balanced.reclaims`).
-/
namespace ScriptCore.Ownership

namespace Pool

/-! ## The queue comes to an end -/

/-- One round of the loop: the first cell of the queue loses a holder. -/
def round : List CellId × Pool → List CellId × Pool
  | ([], p) => ([], p)
  | (c :: queue, p) => (queue ++ (p.dropCell c).1, (p.dropCell c).2)

theorem rounds_drain (queue : List CellId) (p : Pool) :
    ∃ n ≤ queue.length + p.slots.length, round^[n] (queue, p) = ([], drain queue p) := by
  fun_induction drain queue p with
  | case1 p => exact ⟨0, Nat.zero_le _, rfl⟩
  | case2 p c queue next ih =>
    obtain ⟨n, hn, hround⟩ := ih
    have hlength := p.length_dropCell c
    refine ⟨n + 1, ?_, hround⟩
    simp only [List.length_append, List.length_cons, next] at hn ⊢
    omega

theorem rounds_release (p : Pool) (v : Value) :
    ∃ n ≤ p.slots.length + 1, round^[n] (p.letGo v) = ([], p.release v) := by
  obtain ⟨n, hn, hround⟩ := rounds_drain (p.letGo v).1 (p.letGo v).2
  refine ⟨n, ?_, hround⟩
  have hqueue := p.length_letGo v
  have hv : v.toList.length ≤ 1 := by cases v <;> simp
  rw [slots_letGo] at hn
  omega

/-! ## Letting go only takes away -/

/-- `q` comes from `p` by letting go: the cells that are left have their slots as before. -/
structure Shrinks (p q : Pool) : Prop where
  has : ∀ r, q.Has r ↔ p.Has r
  holders : ∀ r, q.holders r ≤ p.holders r
  cells : ∀ c, 0 < q.holders (.cell c) → q.cell c = p.cell c
  log : p.destroyed.toList <+: q.destroyed.toList

theorem Shrinks.refl (p : Pool) : p.Shrinks p :=
  ⟨fun _ => .rfl, fun _ => Nat.le_refl _, fun _ _ => rfl, List.prefix_rfl⟩

theorem Shrinks.trans {p q q' : Pool} (h : p.Shrinks q) (k : q.Shrinks q') : p.Shrinks q' := by
  refine ⟨fun r => (k.has r).trans (h.has r), fun r => (k.holders r).trans (h.holders r), fun c hc => ?_,
    h.log.trans k.log⟩
  rw [k.cells c hc, h.cells c (hc.trans_le (k.holders _))]

theorem shrinks_count (p : Pool) (r : Ref) : p.Shrinks (p.count r (· - 1)) :=
  ⟨p.has_count r _, p.holders_count_le r, fun c _ => p.cell_count r _ c, by rw [destroyed_count]⟩

theorem shrinks_log (p : Pool) (r : Ref) : p.Shrinks (p.log r) :=
  ⟨fun _ => .rfl, fun _ => Nat.le_refl _, fun _ _ => rfl, by simp [log]⟩

theorem shrinks_clearCell {p : Pool} {c : CellId} (h : p.holders (.cell c) = 0) : p.Shrinks (p.clearCell c) := by
  refine ⟨p.has_clearCell c, fun r => (p.holders_clearCell c r).le, fun d hd => cell_clearCell_ne fun e => ?_,
    (p.shrinks_log (.cell c)).log⟩
  rw [holders_clearCell, e, h] at hd
  exact Nat.lt_irrefl 0 hd

theorem shrinks_letGo (p : Pool) (v : Value) : p.Shrinks (p.letGo v).2 := by
  rcases v with _ | c | a
  · exact .refl p
  · exact .refl p
  · simp only [letGo, releaseLeaf]
    split
    · exact (p.shrinks_count (.atom a)).trans (shrinks_log ..)
    · exact p.shrinks_count (.atom a)

theorem shrinks_dropCell (p : Pool) (c : CellId) : p.Shrinks (p.dropCell c).2 := by
  simp only [dropCell]
  split
  · next hz => exact (p.shrinks_count (.cell c)).trans ((shrinks_clearCell hz).trans (shrinks_letGo ..))
  · exact p.shrinks_count (.cell c)

theorem shrinks_drain (queue : List CellId) (p : Pool) : p.Shrinks (drain queue p) := by
  fun_induction drain queue p with
  | case1 p => exact .refl p
  | case2 p c queue next ih => exact (p.shrinks_dropCell c).trans ih

theorem shrinks_release (p : Pool) (v : Value) : p.Shrinks (p.release v) :=
  (p.shrinks_letGo v).trans (shrinks_drain ..)

/-! ## What can be reached -/

/-- An object can be reached from the references in `out`, through the slots of cells. -/
inductive Reachable (p : Pool) (out : List Ref) : Ref → Prop where
  | held {r : Ref} (h : r ∈ out) : p.Reachable out r
  | slot {c : CellId} {r : Ref} (h : p.Reachable out (.cell c)) (hr : r ∈ (p.cell c).refs) : p.Reachable out r

/-- A cell holds another one. -/
def Link (p : Pool) (c d : CellId) : Prop :=
  .cell d ∈ (p.cell c).refs

/-- No cell holds itself, through whatever other cells. -/
def Acyclic (p : Pool) : Prop :=
  ∀ c, ¬ Relation.TransGen p.Link c c

theorem Acyclic.wellFounded {p : Pool} (h : p.Acyclic) :
    WellFounded fun c d : { c : CellId // p.Has (.cell c) } => Relation.TransGen p.Link c.1 d.1 := by
  have hfinite : Finite { c : CellId // p.Has (.cell c) } :=
    Finite.of_injective (fun c => (⟨c.1.index, c.2⟩ : Fin p.cells.size)) fun c d e => by
      obtain ⟨⟨i⟩, hi⟩ := c
      obtain ⟨⟨j⟩, hj⟩ := d
      cases e; rfl
  have htrans : IsTrans { c : CellId // p.Has (.cell c) } fun c d => Relation.TransGen p.Link c.1 d.1 :=
    ⟨fun _ _ _ h k => h.trans k⟩
  have hirrefl : Std.Irrefl fun c d : { c : CellId // p.Has (.cell c) } => Relation.TransGen p.Link c.1 d.1 :=
    ⟨fun c hc => h c.1 hc⟩
  exact Finite.wellFounded_of_trans_of_irrefl _

theorem Reachable.mono {p q : Pool} {out : List Ref} {r : Ref} (hr : q.Reachable out r)
    (h : ∀ c r, r ∈ (q.cell c).refs → r ∈ (p.cell c).refs) : p.Reachable out r := by
  induction hr with
  | held hr => exact .held hr
  | slot _ hr ih => exact .slot ih (h _ _ hr)

/-- As long as what can be reached is alive, it stays within reach. -/
theorem Shrinks.reachable {p q : Pool} {out : List Ref} {r : Ref} (h : p.Shrinks q)
    (halive : ∀ r, q.Reachable out r → 0 < q.holders r) (hr : p.Reachable out r) : q.Reachable out r := by
  induction hr with
  | held h => exact .held h
  | @slot c r _ hr ih =>
    refine .slot ih ?_
    rw [h.cells c (halive _ ih)]
    exact hr

end Pool

namespace Balanced

variable {p : Pool} {out : List Ref} {r : Ref} {v : Value}

theorem alive_of_reachable (h : Balanced p out) (hr : p.Reachable out r) : 0 < p.holders r := by
  cases hr with
  | held hr => exact h.alive_of_mem hr
  | slot _ hr => exact h.alive_of_mem_refs hr

/-- What has a holder is held from outside or by a cell that is alive too. -/
theorem holder (h : Balanced p out) (hr : 0 < p.holders r) :
    r ∈ out ∨ ∃ c, 0 < p.holders (.cell c) ∧ r ∈ (p.cell c).refs := by
  have hcounts := h.counts r
  by_cases hout : r ∈ out
  · exact .inl hout
  · rw [List.count_eq_zero.mpr hout] at hcounts
    obtain ⟨c, hc⟩ := Pool.mem_refs_of_mem_slots (p := p) (r := r) (List.count_pos_iff.mp (by omega))
    refine .inr ⟨c, Nat.pos_of_ne_zero fun hz => ?_, hc⟩
    rw [h.empty c hz] at hc
    exact List.not_mem_nil hc

/-- Without cycles, going from holder to holder ends outside. -/
theorem reachable_of_alive (h : Balanced p out) (ha : p.Acyclic) (hr : 0 < p.holders r) : p.Reachable out r := by
  have hcells : ∀ c : { c : CellId // p.Has (.cell c) }, 0 < p.holders (.cell c.1) → p.Reachable out (.cell c.1) := by
    intro c
    induction c using ha.wellFounded.induction with
    | _ c ih =>
      intro hc
      rcases h.holder hc with hout | ⟨d, hd, hcd⟩
      · exact .held hout
      · exact .slot (ih ⟨d, Pool.has_of_holders hd⟩ (.single hcd) hd) hcd
  rcases h.holder hr with hout | ⟨c, hc, hcr⟩
  · exact .held hout
  · exact .slot (hcells ⟨c, Pool.has_of_holders hc⟩ hc) hcr

theorem not_mem_destroyed (h : Balanced p out) : p.Has r → (r ∉ p.destroyed ↔ 0 < p.holders r) := by
  intro hr
  rw [h.log]
  simp only [hr, true_and]
  omega

end Balanced

/-- What letting go of `v` does, when the references in `out` are left. -/
structure Pool.Reclaims (p : Pool) (v : Value) (out : List Ref) : Prop where
  /-- The queue is empty after some rounds. -/
  ends : ∃ n ≤ p.slots.length + 1, Pool.round^[n] (p.letGo v) = ([], p.release v)
  /-- What was destroyed before is not touched again. -/
  log : p.destroyed.toList <+: (p.release v).destroyed.toList
  /-- Cells that are left hold what they held. -/
  survivors : ∀ c, 0 < (p.release v).holders (.cell c) → (p.release v).cell c = p.cell c
  /-- Nothing is destroyed that can be reached. -/
  safe : ∀ r, p.Reachable out r → r ∉ (p.release v).destroyed
  /-- Without cycles, everything else is destroyed. -/
  precise : p.Acyclic → ∀ r,
    r ∈ (p.release v).destroyed ∧ r ∉ p.destroyed ↔ p.Has r ∧ r ∉ p.destroyed ∧ ¬ p.Reachable out r

theorem Balanced.reclaims {p : Pool} {v : Value} {out : List Ref} (h : Balanced p (v.toList ++ out)) :
    p.Reclaims v out := by
  have hshrinks := p.shrinks_release v
  have hafter : Balanced (p.release v) out := h.release
  have hreach : ∀ r, p.Reachable out r → (p.release v).Reachable out r :=
    fun r hr => hshrinks.reachable (fun _ => hafter.alive_of_reachable) hr
  have hrefs : ∀ c r, r ∈ ((p.release v).cell c).refs → r ∈ (p.cell c).refs := by
    intro c r hr
    have hc : 0 < (p.release v).holders (.cell c) :=
      Nat.pos_of_ne_zero fun hz => by rw [hafter.empty c hz] at hr; exact List.not_mem_nil hr
    rwa [hshrinks.cells c hc] at hr
  have hsafe : ∀ r, p.Reachable out r → r ∉ (p.release v).destroyed := by
    intro r hr hd
    have halive := hafter.alive_of_reachable (hreach r hr)
    have hdead := ((hafter.log r).mp hd).2
    omega
  refine ⟨p.rounds_release v, hshrinks.log, hshrinks.cells, hsafe, fun ha r => ⟨?_, ?_⟩⟩
  · intro ⟨hd, hnew⟩
    exact ⟨(hshrinks.has r).mp ((hafter.log r).mp hd).1, hnew, fun hr => hsafe r hr hd⟩
  · intro ⟨hhas, hnew, hr⟩
    have ha' : (p.release v).Acyclic := fun c hc =>
      ha c (Relation.TransGen.mono (fun c d => hrefs c (.cell d)) c c hc)
    refine ⟨by_contra fun hd => hr ?_, hnew⟩
    rw [hafter.not_mem_destroyed ((hshrinks.has r).mpr hhas)] at hd
    exact (hafter.reachable_of_alive ha' hd).mono hrefs

/-! ## Holdings -/

namespace Holdings

/-- All that a client holds. -/
def held (s : Holdings) : List Ref :=
  s.handles.values ++ s.bindings.values.flatMap Option.toList

/-- A client whose books are right, while it still holds the references in `owed`. -/
structure Sound (s : Holdings) (owed : List Ref) : Prop where
  handles : s.handles.keys.Nodup
  bindings : s.bindings.keys.Nodup
  balanced : Balanced s.pool (owed ++ s.held)

/-- A change of `s` that keeps the books, while what is to be let go of is still held, and destroys nothing. -/
structure Prepares (s : Holdings) (c : Change) : Prop where
  sound : c.holdings.Sound c.old.toList
  destroyed : c.holdings.pool.destroyed = s.pool.destroyed

/-- The state after some steps. -/
def run (steps : List Step) : Holdings :=
  steps.foldl next {}

section Steps

variable {s : Holdings} {h : String} {v : Value} {pool : Pool}

theorem alive_held (hs : s.Sound []) {r : Ref} (hr : r ∈ s.held) : 0 < s.pool.holders r :=
  hs.balanced.alive_of_mem hr

theorem alive_handle (hs : s.Sound []) {r : Ref} (hr : s.handles.find? h = some r) : 0 < s.pool.holders r :=
  alive_held hs (List.mem_append_left _ (Dict.mem_values_of_find? hr))

theorem alive_value (hs : s.Sound []) (name : Option String) : ∀ r ∈ s.value name, 0 < s.pool.holders r := by
  intro r hr
  obtain ⟨h, -, hh⟩ := Option.bind_eq_some_iff.mp hr
  exact alive_handle hs hh

theorem alive_cell? (hs : s.Sound []) {c : CellId} (hc : s.cell? h = some c) : 0 < s.pool.holders (.cell c) := by
  unfold cell? at hc
  split at hc
  · next hr => cases hc; exact alive_handle hs hr
  · cases hc

theorem alive_car (hs : s.Sound []) (c : CellId) : ∀ r ∈ (s.pool.cell c).car, 0 < s.pool.holders r := by
  intro r hr
  rw [Option.mem_def] at hr
  exact hs.balanced.alive_of_mem_refs (c := c) (by simp [Cell.refs, hr])

theorem ofLink_link {name : Option String} {link : Option CellId} (h : s.link name = .ok link) :
    Value.ofLink link = s.value name := by
  unfold Holdings.link at h
  split at h
  · next hv => cases h; exact hv.symm
  · next hv => cases h; exact hv.symm
  · cases h

/-- The handle under `h` is held for `v` in place of the old one. -/
theorem prepares_assign (hs : s.Sound []) (hp : Balanced pool (v.toList ++ s.held))
    (hd : pool.destroyed = s.pool.destroyed) : s.Prepares (s.assign h v pool) := by
  refine ⟨?_, hd⟩
  have hold := Dict.values_perm_erase hs.handles h
  cases v with
  | none =>
    refine ⟨Dict.nodup_keys_erase hs.handles h, hs.bindings, hp.perm ?_⟩
    simpa [held, assign] using hold.append_right _
  | some r =>
    have hnew := Dict.values_insert_perm hs.handles h r
    refine ⟨Dict.nodup_keys_insert hs.handles h r, hs.bindings, hp.perm (List.perm_iff_count.mpr fun r' => ?_)⟩
    have h₁ := hold.count_eq r'
    have h₂ := hnew.count_eq r'
    simp only [held, assign, List.count_append, List.count_cons, Option.toList_some, List.count_nil] at h₁ h₂ ⊢
    omega

/-- What a name is bound to can be taken out of what the bindings hold. -/
theorem bindings_perm (hs : s.bindings.keys.Nodup) (name : String) :
    (s.bindings.values.flatMap Option.toList).Perm
      ((s.bindings.find? name).join.toList ++ (s.bindings.erase name).values.flatMap Option.toList) := by
  have hp := (Dict.values_perm_erase hs name).flatMap_right Option.toList
  cases hb : s.bindings.find? name <;> simpa [hb] using hp

theorem prepares_share (hs : s.Sound []) (hv : ∀ r ∈ v, 0 < s.pool.holders r) : s.Prepares (s.share h v) :=
  prepares_assign hs (hs.balanced.acquire hv) (Pool.destroyed_acquire ..)

theorem prepares_assignChain (hs : s.Sound []) (kind : CellKind) {items : List Value}
    (hitems : ∀ v ∈ items, ∀ r ∈ v, 0 < s.pool.holders r) : s.Prepares (s.assignChain h kind items) :=
  prepares_assign hs (hs.balanced.newChain kind hitems).1 (Pool.destroyed_newChain ..)

theorem prepares_onCell (hs : s.Sound []) {f : CellId → Value × Pool}
    (hf : ∀ c, 0 < s.pool.holders (.cell c) → Balanced (f c).2 ((f c).1.toList ++ s.held))
    (hd : ∀ c, (f c).2.destroyed = s.pool.destroyed) : s.Prepares (s.onCell h f) := by
  unfold onCell
  split
  · exact ⟨hs, rfl⟩
  · next c hc => exact ⟨⟨hs.handles, hs.bindings, hf c (alive_cell? hs hc)⟩, hd c⟩

/-- Each step keeps the books up to the point where it lets go of something. -/
theorem prepares_change (hs : s.Sound []) {st : Step} {c : Change} (hc : s.change st = .ok c) : s.Prepares c := by
  cases st with
  | new h => cases hc; exact prepares_assign hs (hs.balanced.newLeaf h) rfl
  | acquire h source => cases hc; exact prepares_share hs (alive_value hs _)
  | cell h car cdr =>
    simp only [change, bind, Except.bind] at hc
    split at hc
    · cases hc
    · next link hlink =>
      cases hc
      have hcar := hs.balanced.acquire (alive_value hs car)
      have hcdr := hcar.acquire (v := .ofLink link) fun r hr =>
        Balanced.alive_acquire (alive_value hs car) (alive_value hs cdr r (ofLink_link hlink ▸ hr))
      refine prepares_assign hs (Balanced.newCell (hcdr.perm ?_)) ?_
      · simpa [Cell.refs] using List.perm_append_comm_assoc ..
      · exact (Pool.destroyed_acquire ..).trans (Pool.destroyed_acquire ..)
  | chain h kind items =>
    cases hc
    refine prepares_assignChain hs kind fun v hv => ?_
    obtain ⟨name, -, rfl⟩ := List.mem_map.mp hv
    exact alive_value hs name
  | long h n car =>
    cases hc
    refine prepares_assignChain hs .list fun v hv => ?_
    rw [List.eq_of_mem_replicate hv]
    exact alive_value hs car
  | deep h n v =>
    cases hc
    refine prepares_assign hs ((hs.balanced.acquire (alive_value hs v)).nest n) ?_
    exact (Pool.destroyed_nest ..).trans (Pool.destroyed_acquire ..)
  | car h source =>
    cases hc
    refine prepares_share hs fun r hr => ?_
    obtain ⟨c, -, hr⟩ := Option.bind_eq_some_iff.mp hr
    exact alive_car hs c r hr
  | cdr h source =>
    cases hc
    refine prepares_share hs fun r hr => ?_
    obtain ⟨d, hd, rfl⟩ := Option.map_eq_some_iff.mp hr
    obtain ⟨c, -, hd⟩ := Option.bind_eq_some_iff.mp hd
    exact hs.balanced.alive_next hd
  | clone h source =>
    simp only [change] at hc
    split at hc
    · cases hc
    · split at hc
      · cases hc
      · cases hc
        refine prepares_assignChain hs _ fun v hv => ?_
        obtain ⟨d, -, rfl⟩ := List.mem_map.mp hv
        exact alive_car hs d
  | find h name =>
    cases hc
    refine prepares_share hs fun r hr => alive_held hs (List.mem_append_right _ ?_)
    rw [(bindings_perm hs.bindings name).mem_iff]
    exact List.mem_append_left _ (Option.mem_toList.mpr hr)
  | release h =>
    cases hc
    refine ⟨⟨Dict.nodup_keys_erase hs.handles h, hs.bindings, hs.balanced.perm ?_⟩, rfl⟩
    simpa [held, value] using (Dict.values_perm_erase hs.handles h).append_right _
  | setCar h v =>
    cases hc
    have hv := alive_value hs v
    exact prepares_onCell hs (fun c hc => (hs.balanced.acquire hv).replaceCar (Balanced.alive_acquire hv hc))
      fun c => Pool.destroyed_acquire ..
  | setCdr h v =>
    simp only [change, bind, Except.bind] at hc
    split at hc
    · cases hc
    · next link hlink =>
      cases hc
      have hv : ∀ r ∈ Value.ofLink link, 0 < s.pool.holders r := ofLink_link hlink ▸ alive_value hs v
      exact prepares_onCell hs (fun c hc => (hs.balanced.acquire hv).replaceCdr (Balanced.alive_acquire hv hc))
        fun c => Pool.destroyed_acquire ..
  | append h v =>
    simp only [change] at hc
    split at hc
    · cases hc
    · cases hc
      have hv := alive_value hs v
      exact prepares_onCell hs (fun c hc => (hs.balanced.acquire hv).append (Balanced.alive_acquire hv hc))
        fun c => Pool.destroyed_acquire ..
  | bind name v =>
    cases hc
    have hold := bindings_perm hs.bindings name
    have hnew := (Dict.values_insert_perm hs.bindings name (s.value v)).flatMap_right Option.toList
    refine ⟨⟨hs.handles, Dict.nodup_keys_insert hs.bindings name _, ?_⟩, Pool.destroyed_acquire ..⟩
    refine (hs.balanced.acquire (alive_value hs v)).perm (List.perm_iff_count.mpr fun r => ?_)
    have h₁ := hold.count_eq r
    have h₂ := hnew.count_eq r
    simp only [held, List.count_append, List.nil_append, List.flatMap_cons] at h₁ h₂ ⊢
    omega
  | unbind name =>
    cases hc
    refine ⟨⟨hs.handles, Dict.nodup_keys_erase hs.bindings name, hs.balanced.perm ?_⟩, rfl⟩
    exact ((bindings_perm hs.bindings name).append_left _).trans (List.perm_append_comm_assoc ..)

theorem next_of_error {st : Step} {e : Error} (hc : s.change st = .error e) : s.next st = s := by
  simp only [next, step, hc]
  rfl

theorem next_of_change {st : Step} {c : Change} (hc : s.change st = .ok c) : s.next st = c.settle := by
  simp only [next, step, hc]
  rfl

theorem sound_next (hs : s.Sound []) (st : Step) : (s.next st).Sound [] := by
  cases hc : s.change st with
  | error e => rw [next_of_error hc]; exact hs
  | ok c =>
    have hchange := (prepares_change hs hc).sound
    rw [next_of_change hc]
    exact ⟨hchange.handles, hchange.bindings, hchange.balanced.release⟩

theorem sound_run (steps : List Step) : (run steps).Sound [] := by
  have hstart : ({} : Holdings).Sound [] := by
    refine ⟨List.nodup_nil, List.nodup_nil, fun r => ?_, fun c _ => rfl, fun r => ?_, List.nodup_nil⟩
    · cases r <;> rfl
    · cases r <;> simp [Pool.Has]
  suffices h : ∀ s : Holdings, s.Sound [] → (steps.foldl next s).Sound [] from h {} hstart
  intro s hs
  induction steps generalizing s with
  | nil => exact hs
  | cons st steps ih => exact ih (s.next st) (sound_next hs st)

end Steps

/-! ## The books of a run -/

/-- The references in the slots of cells that are alive. -/
def liveSlots (p : Pool) : List Ref :=
  (p.cells.toList.filter fun counted => 0 < counted.holders).flatMap fun counted => counted.content.refs

theorem liveSlots_eq {p : Pool} {out : List Ref} (h : Balanced p out) : liveSlots p = p.slots := by
  have hempty : ∀ counted ∈ p.cells.toList, counted.holders = 0 → counted.content.refs = [] := by
    intro counted hmem hz
    obtain ⟨i, hi, he⟩ := List.mem_iff_getElem.mp hmem
    have hsize : i < p.cells.size := by simpa using hi
    have hi' : p.cells[i]? = some counted := by rw [Array.getElem?_eq_getElem hsize, ← he]; rfl
    have hcell := h.empty ⟨i⟩
    simpa [Pool.holders, holdersAt, Pool.cell, hi', hz] using hcell
  unfold liveSlots Pool.slots
  generalize p.cells.toList = l at hempty
  induction l with
  | nil => rfl
  | cons counted l ih =>
    have ih := ih fun x hx => hempty x (List.mem_cons_of_mem counted hx)
    by_cases hz : counted.holders = 0
    · simp [hz, hempty counted List.mem_cons_self hz, ih]
    · simp [Nat.pos_of_ne_zero hz, ih]

/-- The books of a client are right. -/
structure Exact (s : Holdings) : Prop where
  /-- An object has a holder for each time that the client holds it and for each slot of a living cell. -/
  counts : ∀ r, s.pool.holders r = s.held.count r + (liveSlots s.pool).count r
  /-- What was destroyed is what has no holder. -/
  destroyed_iff : ∀ r, r ∈ s.pool.destroyed ↔ s.pool.Has r ∧ s.pool.holders r = 0
  /-- Nothing was destroyed twice. -/
  once : s.pool.destroyed.toList.Nodup
  /-- Nothing was destroyed that the client can reach. -/
  safe : ∀ r, s.pool.Reachable s.held r → r ∉ s.pool.destroyed

/-- **Exact counts and precise destruction.** After any steps the books are right. A further step changes the pool
without destroying anything, and then lets go of one value: this comes to an end, spares what can be reached, and
destroys everything else unless there is a cycle. -/
theorem exact_run (steps : List Step) :
    (run steps).Exact ∧
    ∀ st c, (run steps).change st = .ok c →
      run (steps ++ [st]) = c.settle ∧ c.holdings.pool.destroyed = (run steps).pool.destroyed ∧
        c.holdings.pool.Reclaims c.old c.settle.held := by
  have hs := sound_run steps
  refine ⟨⟨fun r => ?_, hs.balanced.log, hs.balanced.once, fun r hr hd => ?_⟩, fun st c hc => ⟨?_, ?_⟩⟩
  · rw [liveSlots_eq hs.balanced]; exact hs.balanced.counts r
  · have halive := hs.balanced.alive_of_reachable hr
    have hdead := ((hs.balanced.log r).mp hd).2
    omega
  · rw [run, List.foldl_append]; exact next_of_change hc
  · have hchange := prepares_change hs hc
    exact ⟨hchange.destroyed, hchange.sound.balanced.reclaims⟩

/-- A cell with one and the same cell in both slots. Letting go of it puts that cell into the queue twice; there is
no cycle, so with the second entry the inner cell and its leaf are destroyed, each once. -/
theorem exact_run_shared :
    let steps : List Step :=
      [.new "leaf", .cell "inner" "leaf" none, .cell "outer" "inner" "inner", .release "leaf", .release "inner"]
    ∃ c, (run steps).change (.release "outer") = .ok c ∧ c.holdings.pool.Acyclic ∧
      c.holdings.pool.Reclaims c.old c.settle.held ∧
      (run (steps ++ [.release "outer"])).pool.destroyed = #[.cell ⟨1⟩, .cell ⟨0⟩, .atom ⟨0⟩] := by
  intro steps
  refine ⟨_, rfl, ?_, ((exact_run steps).2 (.release "outer") _ rfl).2.2, by cbv⟩
  have hpool : (run steps).pool.cells =
      #[⟨2, { car := some (.atom ⟨0⟩) }⟩, ⟨1, { car := some (.cell ⟨0⟩), cdr := some ⟨0⟩ }⟩] := by cbv
  have hlink : ∀ c d, (run steps).pool.Link c d → d.index < c.index := by
    intro c d hcd
    unfold Pool.Link Pool.cell at hcd
    rw [hpool] at hcd
    obtain ⟨_ | _ | i⟩ := c <;> simp [Cell.refs, Value.ofLink] at hcd
    simp [hcd]
  have htrans : ∀ c d, Relation.TransGen (run steps).pool.Link c d → d.index < c.index := by
    intro c d hcd
    induction hcd with
    | single h => exact hlink _ _ h
    | tail _ h ih => exact (hlink _ _ h).trans ih
  exact fun c hc => Nat.lt_irrefl _ (htrans c c hc)

end Holdings

end ScriptCore.Ownership
