import ScriptCore.Proofs.Records

/-!
# The lock discipline on one thread

What a thread holds is the list of its guards, `State.held`. Requests, drops and scopes keep the records in line
with it, in whatever order they come.

* `Sound` is the invariant. It allows for guards that are not kept yet, and each function on states keeps it.
* `Event` lists all that can happen, and `Sound.run` is about any list of events. A scope is a list of events,
  whether its body returns or crashes (`Body.visits`).
* `disciplined_reached` says what follows for requests in every state that a thread comes to.
-/
namespace ScriptCore.Lock

/-! ## Guards that are kept -/

/-- The guards a thread holds: those of the open scopes, and those under names. -/
def State.held (s : State) : List Guard :=
  s.scopes ++ s.guards.values

/-- A state in order, while the guards `pending` are not kept yet. -/
structure Sound (s : State) (pending : List Guard) : Prop where
  names : s.guards.keys.Nodup
  tracks : Tracks s (pending ++ s.held)

theorem guards_drop (s : State) (name : String) : (s.drop name).guards = s.guards.erase name := by
  unfold State.drop
  split
  · next h => rw [Dict.erase_of_find?_eq_none h]
  · rfl

theorem scopes_drop (s : State) (name : String) : (s.drop name).scopes = s.scopes := by
  unfold State.drop
  split
  · rfl
  · exact scopes_release ..

theorem held_drop {s : State} (h : s.guards.keys.Nodup) {name : String} {g : Guard}
    (hg : s.guards.find? name = some g) : s.held.Perm (g :: (s.drop name).held) := by
  have hp := Dict.values_perm_erase h name
  rw [hg] at hp
  rw [State.held, State.held, guards_drop, scopes_drop]
  exact (hp.append_left s.scopes).trans List.perm_middle

theorem held_vacate_enter (s : State) (g : Guard) (latch : Latch) (keeper : Keeper) :
    ((s.enter g latch).vacate keeper).held = (s.vacate keeper).held := by
  cases keeper with
  | scope => rw [State.vacate, State.vacate, State.held, State.held, scopes_enter, guards_enter]
  | name name =>
    simp only [State.vacate, State.held, guards_drop, scopes_drop, scopes_enter, guards_enter]

theorem held_keep {s : State} (h : s.guards.keys.Nodup) (g : Guard) (keeper : Keeper) :
    (s.keep g keeper).held.Perm (g :: (s.vacate keeper).held) := by
  cases keeper with
  | scope => exact .refl _
  | name name =>
    have hv := Dict.values_insert_perm (Dict.nodup_keys_erase h name) name g
    rw [Dict.erase_of_find?_eq_none (Dict.find?_erase_self ..)] at hv
    simp only [State.keep, State.vacate, State.held, guards_drop]
    exact (hv.append_left _).trans List.perm_middle

namespace Sound

variable {s : State} {pending : List Guard} {g : Guard}

theorem drop (h : Sound s pending) (name : String) : Sound (s.drop name) pending := by
  cases hg : s.guards.find? name with
  | none => simpa [State.drop, hg] using h
  | some g =>
    have hp : (pending ++ s.held).Perm (g :: (pending ++ (s.drop name).held)) :=
      ((held_drop h.names hg).append_left pending).trans List.perm_middle
    have ht := (h.tracks.perm hp).release
    simp only [State.drop, hg] at ht ⊢
    exact ⟨Dict.nodup_keys_erase h.names name, ht.kept _ _⟩

theorem leave (h : Sound s pending) : Sound s.leave pending := by
  unfold State.leave
  split
  · exact h
  · next g rest hs =>
    refine ⟨by rw [guards_release]; exact h.names, ?_⟩
    have hp : (pending ++ s.held).Perm (g :: (pending ++ (rest ++ s.guards.values))) := by
      rw [State.held, hs]; exact List.perm_middle
    have ht := (h.tracks.perm hp).release.kept (s.release g).guards rest
    simpa only [State.held, guards_release] using ht

theorem vacate (h : Sound s pending) (keeper : Keeper) : Sound (s.vacate keeper) pending := by
  cases keeper with
  | scope => exact h
  | name name => exact h.drop name

/-- What was pending is held. -/
theorem keep (h : Sound s (g :: pending)) (keeper : Keeper) : Sound (s.keep g keeper) pending := by
  have hv := h.vacate keeper
  have hp : (g :: pending ++ (s.vacate keeper).held).Perm (pending ++ (s.keep g keeper).held) :=
    List.perm_middle.symm.trans ((held_keep h.names g keeper).symm.append_left pending)
  refine ⟨?_, ?_⟩
  · cases keeper with
    | scope => exact h.names
    | name name => exact Dict.nodup_keys_insert hv.names name g
  · cases keeper <;> exact (hv.tracks.perm hp).kept _ _

/-- A request on a state in order is answered by the guards. -/
theorem request (h : Sound s pending) (hg : g.lock.index < s.cells.size) :
    (g.Conflicts (pending ++ s.held) → ∃ v, request g s = .error (.violation v) s) ∧
    (¬ g.Conflicts (pending ++ s.held) →
      ∃ latch, request g s = .ok () (s.enter g latch) ∧ Sound (s.enter g latch) (g :: pending)) := by
  have hobj := h.tracks.objection_eq_none_iff (g := g)
  simp only [request_eq, Nat.not_le.mpr hg, if_false]
  constructor
  · intro hc
    cases ho : s.objection g with
    | none => exact absurd hc (hobj.mp ho)
    | some v => exact ⟨v, rfl⟩
  · intro hc
    obtain ⟨latch, htake, ht⟩ := h.tracks.granted hg hc
    refine ⟨latch, by rw [hobj.mpr hc, htake], ?_⟩
    refine ⟨by rw [guards_enter]; exact h.names, ?_⟩
    simpa only [State.held, guards_enter, scopes_enter, List.cons_append] using ht

end Sound

theorem take_eq (g : Guard) (keeper : Keeper) (s : State) :
    take g keeper s = match request g s with
      | .ok _ s => .ok () (s.keep g keeper)
      | .error e s => .error e s := by
  simp only [take, bind, EStateM.bind]
  cases request g s <;> rfl

theorem take_missing {s : State} {g : Guard} (hg : ¬ g.lock.index < s.cells.size) (keeper : Keeper) :
    take g keeper s = .error .missing s := by
  simp [take_eq, request_eq, Nat.not_lt.mp hg]

/-- A request is refused with nothing done, or it is granted and its guard kept. -/
theorem take_outcome (g : Guard) (keeper : Keeper) (s : State) :
    (∃ e, take g keeper s = .error e s) ∨
      ∃ latch, take g keeper s = .ok () ((s.enter g latch).keep g keeper) := by
  rw [take_eq, request_eq]
  by_cases hsize : s.cells.size ≤ g.lock.index
  · exact .inl ⟨.missing, by simp only [hsize, if_true]⟩
  · simp only [hsize, if_false]
    cases s.objection g with
    | some v => exact .inl ⟨.violation v, rfl⟩
    | none =>
      cases (s.cell g.lock).latch.take g.mode with
      | none => exact .inl ⟨.waiting, rfl⟩
      | some latch => exact .inr ⟨latch, rfl⟩

theorem scopes_keep (s : State) (g : Guard) (keeper : Keeper) :
    (s.keep g keeper).scopes = match keeper with
      | .scope => g :: s.scopes
      | .name _ => s.scopes := by
  cases keeper with
  | scope => rfl
  | name name => exact scopes_drop s name

/-! ## Runs -/

/-- The state in which work ends, be it with an answer or with a crash. -/
def finish {α : Type} (x : LockM α) (s : State) : State :=
  match x s with
  | .ok _ s => s
  | .error _ s => s

/-- What a thread can do to its guarded cells. -/
inductive Event where
  | new (n : Int64)
  | take (g : Guard) (keeper : Keeper)
  | drop (name : String)
  /-- Ends the innermost scope. -/
  | leave
  /-- Stores through a named guard. -/
  | put (name : String) (n : Int64)
  /-- Stores through the guard of the innermost scope. -/
  | store (n : Int64)

/-- The state after an event. -/
def State.next (s : State) : Event → State
  | .new n => (s.new n).2
  | .take g keeper => finish (Lock.take g keeper) s
  | .drop name => s.drop name
  | .leave => s.leave
  | .put name n => s.put name n
  | .store n =>
    match s.scopes with
    | ⟨c, .write⟩ :: _ => s.store c n
    | _ => s

/-- The state after some events. -/
def State.run (s : State) (events : List Event) : State :=
  events.foldl State.next s

namespace Sound

variable {s : State} {g : Guard}

theorem take_cases (h : Sound s []) (hg : g.lock.index < s.cells.size) (keeper : Keeper) :
    (g.Conflicts s.held ∧ ∃ v, Lock.take g keeper s = .error (.violation v) s) ∨
    (¬ g.Conflicts s.held ∧ ∃ s', Lock.take g keeper s = .ok () s' ∧
      s'.held.Perm (g :: (s.vacate keeper).held) ∧ Sound s' []) := by
  obtain ⟨hrefuse, hgrant⟩ := h.request hg
  by_cases hc : g.Conflicts s.held
  · obtain ⟨v, hv⟩ := hrefuse hc
    exact .inl ⟨hc, v, by rw [take_eq, hv]⟩
  · obtain ⟨latch, hl, hs⟩ := hgrant hc
    have hp := held_keep hs.names g keeper
    rw [held_vacate_enter] at hp
    exact .inr ⟨hc, _, by rw [take_eq, hl], hp, hs.keep keeper⟩

theorem new (h : Sound s []) (n : Int64) : Sound (s.new n).2 [] :=
  ⟨h.names, h.tracks.new n⟩

theorem store (h : Sound s []) (c : LockId) (n : Int64) : Sound (s.store c n) [] :=
  ⟨h.names, h.tracks.store c n⟩

theorem next (h : Sound s []) (e : Event) : Sound (s.next e) [] := by
  cases e with
  | new n => exact h.new n
  | take g keeper =>
    unfold State.next finish
    by_cases hg : g.lock.index < s.cells.size
    · rcases h.take_cases hg keeper with ⟨-, v, hv⟩ | ⟨-, s', hs', -, hsound⟩
      · simpa only [hv] using h
      · simpa only [hs'] using hsound
    · simpa only [take_missing hg] using h
  | drop name => exact h.drop name
  | leave => exact h.leave
  | put name n =>
    simp only [State.next, State.put]
    split
    · exact h.store _ n
    · exact h
  | store n =>
    simp only [State.next]
    split
    · exact h.store _ n
    · exact h

theorem run (h : Sound s []) (events : List Event) : Sound (s.run events) [] := by
  induction events generalizing s with
  | nil => exact h
  | cons e events ih => exact ih (h.next e)

end Sound

/-! ## Scopes

A body runs in a scope, and whatever it does, the scopes that were open before it are those that are open behind
it. -/

/-- Some events lead from `s` to `s'`, with the same scopes open. -/
def State.Visits (s s' : State) : Prop :=
  (∃ events, s.run events = s') ∧ s'.scopes = s.scopes

theorem State.Visits.refl (s : State) : s.Visits s :=
  ⟨⟨[], rfl⟩, rfl⟩

theorem State.Visits.trans {s s' s'' : State} (h : s.Visits s') (k : s'.Visits s'') : s.Visits s'' := by
  obtain ⟨⟨events, rfl⟩, hs⟩ := h
  obtain ⟨⟨more, rfl⟩, hs'⟩ := k
  exact ⟨⟨events ++ more, by simp [State.run]⟩, hs'.trans hs⟩

theorem visits_next {s : State} {e : Event} (h : (s.next e).scopes = s.scopes) : s.Visits (s.next e) :=
  ⟨⟨[e], rfl⟩, h⟩

theorem finish_bind {α β : Type} (x : LockM α) (f : α → LockM β) (s : State) :
    finish (x >>= f) s = match x s with
      | .ok a s => finish (f a) s
      | .error _ s => s := by
  simp only [finish, bind, EStateM.bind]
  cases x s <;> rfl

/-- What comes after `x` starts where `x` has ended. -/
theorem visits_bind {α β : Type} {x : LockM α} {f : α → LockM β} {s : State} (hx : s.Visits (finish x s))
    (hf : ∀ a, s.Visits (finish x s) → (finish x s).Visits (finish (f a) (finish x s))) :
    s.Visits (finish (x >>= f) s) := by
  rw [finish_bind]
  cases h : x s with
  | ok a s' =>
    have hs' : finish x s = s' := by simp [finish, h]
    rw [hs'] at hx hf
    exact hx.trans (hf a hx)
  | error e s' =>
    have hs' : finish x s = s' := by simp [finish, h]
    exact hs' ▸ hx

theorem finish_closing {α : Type} (x : LockM α) (s : State) : finish (closing x) s = (finish x s).leave := by
  unfold finish closing
  cases x s <;> rfl

theorem finish_caught {α : Type} (x : LockM α) (s : State) : finish (caught x) s = finish x s := by
  unfold finish caught
  cases x s <;> rfl

theorem finish_within {α : Type} (g : Guard) (x : LockM α) (s : State) :
    finish (within g x) s = match take g .scope s with
      | .ok _ s => (finish x s).leave
      | .error _ s => s := by
  rw [within, finish_bind]
  cases take g .scope s with
  | ok _ s => exact finish_closing x s
  | error _ s => rfl

/-- A scope is closed, whether what ran in it came to its end or not. -/
theorem visits_within {α : Type} {g : Guard} {x : LockM α} {s : State}
    (hx : ∀ s' : State, s'.scopes = g :: s.scopes → s'.Visits (finish x s')) :
    s.Visits (finish (within g x) s) := by
  rw [finish_within]
  rcases take_outcome g .scope s with ⟨e, he⟩ | ⟨latch, hl⟩
  · rw [he]; exact .refl s
  · have hnext : s.next (.take g .scope) = (s.enter g latch).keep g .scope := by
      simp [State.next, finish, hl]
    have hopen : ((s.enter g latch).keep g .scope).scopes = g :: s.scopes := by
      rw [scopes_keep, scopes_enter]
    rw [hl]
    obtain ⟨⟨events, hrun⟩, hscopes⟩ := hx _ hopen
    -- The body has kept the scopes, so the innermost one is `g` again and `leave` gives it back.
    refine ⟨⟨.take g .scope :: events ++ [.leave], ?_⟩, ?_⟩
    · simp only [State.run, List.cons_append, List.foldl_cons, List.foldl_append, List.foldl_nil, hnext] at hrun ⊢
      rw [hrun]; rfl
    · rw [hopen] at hscopes
      simp only [State.leave, hscopes]

theorem scopes_take (s : State) (g : Guard) (name : String) :
    (finish (take g (.name name)) s).scopes = s.scopes := by
  simp only [finish]
  rcases take_outcome g (.name name) s with ⟨e, he⟩ | ⟨latch, hl⟩
  · rw [he]
  · rw [hl]; simp only [scopes_keep, scopes_enter]

theorem scopes_put (s : State) (name : String) (n : Int64) : (s.put name n).scopes = s.scopes := by
  unfold State.put; split <;> rfl

/-- A body in a scope for writing stores through the guard of the scope. -/
theorem visits_store {s : State} {c : LockId} {rest : List Guard} (h : s.scopes = ⟨c, .write⟩ :: rest)
    (n : Int64) : s.Visits (s.store c n) := by
  have hnext : s.next (.store n) = s.store c n := by simp only [State.next, h]
  rw [← hnext]
  exact visits_next (by rw [hnext]; rfl)

/-- Whatever a body does is done by events, and it leaves the scopes as it finds them. -/
theorem Body.visits {mode : Mode} (body : Body mode) (c : LockId) (s : State) {rest : List Guard}
    (h : s.scopes = ⟨c, mode⟩ :: rest) : s.Visits (finish (body.run c) s) := by
  induction body generalizing c s rest with
  | value => exact .refl s
  | crash message => exact .refl s
  | replace n => exact visits_store h n
  | store n body ih =>
    rw [Body.run]
    exact visits_bind (visits_store h n) fun _ hv => ih c _ (hv.2.trans h)
  | nested c' inner body ih =>
    rw [Body.run]
    refine visits_bind (.refl s) fun _ _ => visits_bind ?_ fun _ _ => .refl _
    exact visits_within fun s' hs' => ih c' s' hs'
  | attempt c' inner body next ihb ihn =>
    rw [Body.run]
    refine visits_bind ?_ fun _ hv => ihn c _ (hv.2.trans h)
    rw [finish_caught]
    exact visits_within fun s' hs' => ihb c' s' hs'
  | acquire c' wanted name next ih =>
    rw [Body.run]
    exact visits_bind (visits_next (e := .take _ _) (scopes_take ..)) fun _ hv => ih c _ (hv.2.trans h)
  | drop name next ih =>
    rw [Body.run]
    exact visits_bind (visits_next (e := .drop name) (scopes_drop ..)) fun _ hv => ih c _ (hv.2.trans h)
  | put name n next ih =>
    rw [Body.run]
    exact visits_bind (visits_next (e := .put name n) (scopes_put ..)) fun _ hv => ih c _ (hv.2.trans h)

theorem visits_scope (s : State) (c : LockId) (mode : Mode) (body : Body mode) :
    s.Visits (finish (scope c mode body) s) :=
  visits_within fun s' hs' => body.visits c s' hs'

/-! ## The discipline -/

/-- What a thread can rely on in a state. -/
structure Disciplined (s : State) : Prop where
  /-- A cell is refused to a reader exactly while it is held for writing. -/
  read_refused_iff (c : LockId) (keeper : Keeper) :
    (∃ v, take ⟨c, .read⟩ keeper s = .error (.violation v) s) ↔ ⟨c, .write⟩ ∈ s.held
  /-- A cell is refused to a writer exactly while it is held in any way. -/
  write_refused_iff (c : LockId) (keeper : Keeper) :
    (∃ v, take ⟨c, .write⟩ keeper s = .error (.violation v) s) ↔ ⟨c, .read⟩ ∈ s.held ∨ ⟨c, .write⟩ ∈ s.held
  /-- A request that fails changes nothing, and it does come back: for a cell that exists, it is a violation. -/
  refused (g : Guard) (keeper : Keeper) (e : Stop) (s' : State) (h : take g keeper s = .error e s') :
    s' = s ∧ (g.lock.index < s.cells.size → ∃ v, e = .violation v)
  /-- With a request that succeeds, its guard is held, in place of the one under the same name. -/
  granted (g : Guard) (keeper : Keeper) (s' : State) (h : take g keeper s = .ok () s') :
    s'.held.Perm (g :: (s.vacate keeper).held)
  /-- What is dropped is not held any more. -/
  dropped (name : String) (g : Guard) (h : s.guards.find? name = some g) :
    s.held.Perm (g :: (s.drop name).held)
  /-- A writer holds a cell alone. -/
  exclusive (c : LockId) : s.held.count ⟨c, .write⟩ ≤ 1 ∧ ¬ (⟨c, .write⟩ ∈ s.held ∧ ⟨c, .read⟩ ∈ s.held)
  /-- When no guard of a cell is left, it can be held for writing. -/
  free (c : LockId) (keeper : Keeper) (hc : c.index < s.cells.size) (h : ∀ mode, ⟨c, mode⟩ ∉ s.held) :
    ∃ s', take ⟨c, .write⟩ keeper s = .ok () s'

namespace Sound

variable {s : State}

theorem present_of_conflicts {g : Guard} (h : Sound s []) (hc : g.Conflicts s.held) :
    g.lock.index < s.cells.size := by
  obtain ⟨c, mode⟩ := g
  cases mode with
  | read => exact h.tracks.present ⟨c, .write⟩ hc
  | write =>
    rcases hc with hc | hc
    · exact h.tracks.present ⟨c, .read⟩ hc
    · exact h.tracks.present ⟨c, .write⟩ hc

theorem refused_iff (h : Sound s []) (g : Guard) (keeper : Keeper) :
    (∃ v, Lock.take g keeper s = .error (.violation v) s) ↔ g.Conflicts s.held := by
  constructor
  · intro hv
    by_cases hg : g.lock.index < s.cells.size
    · rcases h.take_cases hg keeper with ⟨hc, -⟩ | ⟨-, s', hs', -⟩
      · exact hc
      · simp [hs'] at hv
    · simp [take_missing hg] at hv
  · intro hc
    rcases h.take_cases (h.present_of_conflicts hc) keeper with ⟨-, hv⟩ | ⟨hfree, -⟩
    · exact hv
    · exact absurd hc hfree

theorem exclusive (h : Sound s []) (c : LockId) :
    s.held.count ⟨c, .write⟩ ≤ 1 ∧ ¬ (⟨c, .write⟩ ∈ s.held ∧ ⟨c, .read⟩ ∈ s.held) := by
  have hcell : Accounts s.thread (s.held.count ⟨c, .read⟩) (s.held.count ⟨c, .write⟩) (s.cell c) := h.tracks.cells c
  refine ⟨hcell.alone, fun ⟨hw, hr⟩ => ?_⟩
  have := hcell.exclusive
  rw [← List.count_pos_iff] at hw hr
  omega

theorem disciplined (h : Sound s []) : Disciplined s where
  read_refused_iff c keeper := h.refused_iff ⟨c, .read⟩ keeper
  write_refused_iff c keeper := h.refused_iff ⟨c, .write⟩ keeper
  refused g keeper e s' he := by
    rcases take_outcome g keeper s with ⟨e', he'⟩ | ⟨latch, hl⟩
    · rw [he'] at he
      cases he
      refine ⟨rfl, fun hg => ?_⟩
      rcases h.take_cases hg keeper with ⟨-, v, hv⟩ | ⟨-, s', hs', -⟩
      · rw [he'] at hv; cases hv; exact ⟨v, rfl⟩
      · rw [he'] at hs'; cases hs'
    · rw [hl] at he; cases he
  granted g keeper s' hs' := by
    by_cases hg : g.lock.index < s.cells.size
    · rcases h.take_cases hg keeper with ⟨-, v, hv⟩ | ⟨-, s'', hs'', hp, -⟩
      · rw [hv] at hs'; cases hs'
      · rw [hs''] at hs'; cases hs'; exact hp
    · rw [take_missing hg] at hs'; cases hs'
  dropped name g hg := held_drop h.names hg
  exclusive := h.exclusive
  free c keeper hc hfree := by
    rcases h.take_cases (g := ⟨c, .write⟩) hc keeper with ⟨hc | hc, -⟩ | ⟨-, s', hs', -⟩
    · exact absurd hc (hfree .read)
    · exact absurd hc (hfree .write)
    · exact ⟨s', hs'⟩

end Sound

/-- The state of a thread after some events, from one without cells. -/
def reached (t : ThreadId) (events : List Event) : State :=
  State.run { thread := t } events

theorem reached_append (t : ThreadId) (events more : List Event) :
    reached t (events ++ more) = (reached t events).run more := by
  simp [reached, State.run]

theorem sound_start (t : ThreadId) : Sound { thread := t } [] := by
  refine ⟨List.nodup_nil, ⟨?_, fun c => rfl, fun c => ?_⟩⟩
  · simp [State.held, Dict.values]
  · simpa [State.held, Dict.values, State.cell] using Accounts.fresh t 0

/-- **Lock discipline.** In every state that a thread comes to, by any events in any order, the discipline holds.
A scope is refused as a request is. Otherwise its body runs with the guard held, and whether the body returns or
crashes, the guard is given back behind it. All of that is events too, so that the discipline holds in the body
and behind the scope, with the same scopes open as before. -/
theorem disciplined_reached (t : ThreadId) (events : List Event) :
    Disciplined (reached t events) ∧
    ∀ (c : LockId) (mode : Mode) (body : Body mode),
      (∀ e, take ⟨c, mode⟩ .scope (reached t events) = .error e (reached t events) →
        scope c mode body (reached t events) = .error e (reached t events)) ∧
      (∀ s, take ⟨c, mode⟩ .scope (reached t events) = .ok () s →
        s = reached t (events ++ [.take ⟨c, mode⟩ .scope]) ∧ ⟨c, mode⟩ ∈ s.held ∧
          finish (scope c mode body) (reached t events) = (finish (body.run c) s).leave) ∧
      ∃ more, finish (scope c mode body) (reached t events) = reached t (events ++ more) ∧
        (reached t (events ++ more)).scopes = (reached t events).scopes := by
  have hdisciplined := ((sound_start t).run events).disciplined
  refine ⟨hdisciplined, fun c mode body => ⟨fun e he => ?_, fun s hs => ⟨?_, ?_, ?_⟩, ?_⟩⟩
  · simp only [scope, within, bind, EStateM.bind, he]
  · rw [reached_append]
    simp only [State.run, List.foldl_cons, List.foldl_nil, State.next, finish, hs]
  · exact (hdisciplined.granted _ _ s hs).mem_iff.mpr List.mem_cons_self
  · rw [scope, finish_within, hs]
  · obtain ⟨⟨more, hrun⟩, hscopes⟩ := visits_scope (reached t events) c mode body
    exact ⟨more, by rw [reached_append, hrun], by rw [reached_append, hrun]; exact hscopes⟩

/-- Of two readings the first is given back. The cell is still refused to a scope for writing, which leaves all as
it is; when the second one is given back too, the scope stores its number. -/
theorem disciplined_nestedReads :
    let events : List Event :=
      [.new 5, .take ⟨⟨0⟩, .read⟩ (.name "first"), .take ⟨⟨0⟩, .read⟩ (.name "second"), .drop "first"]
    take ⟨⟨0⟩, .write⟩ .scope (reached ⟨1⟩ events) =
      .error (.violation .writeWhileReading) (reached ⟨1⟩ events) ∧
    scope ⟨0⟩ .write (.replace 7) (reached ⟨1⟩ events) =
      .error (.violation .writeWhileReading) (reached ⟨1⟩ events) ∧
    ⟨⟨0⟩, .write⟩ ∈ (reached ⟨1⟩ (events ++ [.drop "second", .take ⟨⟨0⟩, .write⟩ .scope])).held ∧
    finish (scope ⟨0⟩ .write (.replace 7)) (reached ⟨1⟩ (events ++ [.drop "second"])) =
      reached ⟨1⟩ [.new 7] := by
  intro events
  have hrefused : take ⟨⟨0⟩, .write⟩ .scope (reached ⟨1⟩ events) =
      .error (.violation .writeWhileReading) (reached ⟨1⟩ events) := by cbv
  have hgranted : take ⟨⟨0⟩, .write⟩ .scope (reached ⟨1⟩ (events ++ [.drop "second"])) =
      .ok () (reached ⟨1⟩ (events ++ [.drop "second", .take ⟨⟨0⟩, .write⟩ .scope])) := by cbv
  have hscope := (disciplined_reached ⟨1⟩ (events ++ [.drop "second"])).2 ⟨0⟩ .write (.replace 7)
  refine ⟨hrefused, ((disciplined_reached ⟨1⟩ events).2 ⟨0⟩ .write (.replace 7)).1 _ hrefused, ?_, ?_⟩
  · exact (hscope.2.1 _ hgranted).2.1
  · exact (hscope.2.1 _ hgranted).2.2.trans (by cbv)

end ScriptCore.Lock
