import ScriptCore.Host.Builtins
import ScriptCore.Proofs.Overlay

/-!
# The depth of evaluation

At every moment of a run the depth is what it was at the start and one more for each frame that is open, and it does
not go over the limit, except that it starts there. However the run ends, with a value, an error from any level or a
crash of native code, every frame has been closed (`depth_restored`).

* `Throughout P k x m` says that `P` holds at every moment of the run of `x` from `m`. The number of open frames is
  counted along, from the way the run is put together and not from the depth that the engine keeps.
* `Counted` is what holds at every moment. Single steps keep it, and a frame moves it up by one
  (`Composed.throughout`).
* A run depends on the past of the engine through its depth only: states that differ in the record of the greatest
  depth cannot be told apart (`Composed.twin`). So an engine that is idle again is as good as new.
-/
namespace ScriptCore

open Machine

/-! ## Every moment of a run -/

/-- `P k` holds of the state at every moment of the run of `x` from `m`, where `k` is the number of frames open at
that moment, those that were open at the start included. -/
inductive Throughout (space : SpaceId) (P : Nat → Machine → Prop) : {α : Type} → Nat → RunM α → Machine → Prop
  | step {α : Type} {k : Nat} {x : RunM α} {m : Machine} (hx : Step space x) (start : P k m)
      (stop : P k (after (x m))) : Throughout space P k x m
  | bind {α β : Type} {k : Nat} {x : RunM α} {f : α → RunM β} {m : Machine} (hx : Throughout space P k x m)
      (hf : ∀ a m', x m = .ok a m' → Throughout space P k (f a) m') : Throughout space P k (x >>= f) m
  | refused {α : Type} {k : Nat} {x : RunM α} {m m' : Machine} {e : Fault} (h : enter m = .error e m') (start : P k m)
      (stop : P k m') : Throughout space P k (framed x) m
  | framed {α : Type} {k : Nat} {x : RunM α} {m m' : Machine} (h : enter m = .ok () m') (start : P k m)
      (hx : Throughout space P (k + 1) x m') (stop : P k (after (framed x m))) : Throughout space P k (framed x) m
  | catching {α : Type} {k : Nat} {x : RunM α} {m : Machine} (hx : Throughout space P k x m) :
      Throughout space P k (Fault.catching x) m

theorem Throughout.imp {α : Type} {space : SpaceId} {P Q : Nat → Machine → Prop} {k : Nat} {x : RunM α} {m : Machine}
    (hPQ : ∀ k m, P k m → Q k m) (h : Throughout space P k x m) : Throughout space Q k x m := by
  induction h with
  | step hx start stop => exact .step hx (hPQ _ _ start) (hPQ _ _ stop)
  | bind _ _ ihx ihf => exact .bind ihx ihf
  | refused h start stop => exact .refused h (hPQ _ _ start) (hPQ _ _ stop)
  | framed h start _ stop ih => exact .framed h (hPQ _ _ start) ih (hPQ _ _ stop)
  | catching _ ih => exact .catching ih

/-- With `k` frames open since the depth was `start`, under limits that have not changed. -/
structure Counted (start : Nat) (limits : Config) (k : Nat) (m : Machine) : Prop where
  config : m.config = limits
  depth : m.depth = start + k
  limit : m.depth ≤ max start limits.maxDepth.toNat

section Counting

variable {α : Type} {space : SpaceId} {start k : Nat} {limits : Config} {m m' : Machine}

theorem Counted.confined (h : Counted start limits k m) (hc : Confined space m m') : Counted start limits k m' := by
  refine ⟨hc.config.trans h.config, hc.depth.trans h.depth, ?_⟩
  rw [hc.depth]
  exact h.limit

theorem Counted.deeper (h : Counted start limits k m) (hlimit : ¬ m.config.maxDepth.toNat ≤ m.depth) :
    Counted start limits (k + 1) m.deeper := by
  have hd := h.depth
  rw [h.config] at hlimit
  refine ⟨h.config, ?_, ?_⟩ <;> simp only [Machine.deeper] <;> omega

theorem Composed.throughout {x : RunM α} (hx : Composed space x) (h : Counted start limits k m) :
    Throughout space (Counted start limits) k x m := by
  -- On the way the run is put together: the state between two parts is counted because the first part is confined.
  induction hx generalizing k m with
  | step hx => exact .step hx h (h.confined (hx.confining m))
  | bind hx _ ihx ihf =>
    refine .bind (ihx h) fun a m' hrun => ?_
    have hc := hx.confining m
    rw [hrun] at hc
    exact ihf a (h.confined hc)
  | framed hx ih =>
    by_cases hlimit : m.config.maxDepth.toNat ≤ m.depth
    · exact .refused (if_pos hlimit) h h
    · exact .framed (if_neg hlimit) h (ih (h.deeper hlimit)) (h.confined ((Composed.framed hx).confining m))
  | catching _ ih => exact .catching (ih h)

end Counting

/-! ## The same engine -/

/-- States that differ at most in the record of the greatest depth. -/
structure Machine.Same (m m' : Machine) : Prop where
  store : m'.store = m.store
  spaces : m'.spaces = m.spaces
  config : m'.config = m.config
  depth : m'.depth = m.depth

section Same

variable {α : Type} {space : SpaceId} {m m' : Machine}

theorem Step.twin {x : RunM α} (hx : Step space x) (h : m.Same m') : Twin Machine.Same (fun _ => False) (x m) (x m') := by
  obtain ⟨hstore, hspaces, hconfig, hdepth⟩ := h
  cases hx with
  | pure a => exact .ok ⟨hstore, hspaces, hconfig, hdepth⟩
  | throw e => exact .error ⟨hstore, hspaces, hconfig, hdepth⟩
  | observe f =>
    show Twin _ _ (.ok (f m.store m.spaces m.config m.depth) m) (.ok (f m'.store m'.spaces m'.config m'.depth) m')
    rw [hstore, hspaces, hconfig, hdepth]
    exact .ok ⟨hstore, hspaces, hconfig, hdepth⟩
  | onStore x =>
    unfold Machine.onStore
    rw [hstore]
    cases x m.store with
    | ok a s => exact .ok ⟨rfl, hspaces, hconfig, hdepth⟩
    | error e s => exact .error ⟨rfl, hspaces, hconfig, hdepth⟩
  | bindName name v =>
    show Twin _ _ (.ok (m.spaces.bind space name v).1 _) (.ok (m'.spaces.bind space name v).1 _)
    rw [hspaces]
    exact .ok ⟨hstore, rfl, hconfig, hdepth⟩

theorem Machine.Same.enter (h : m.Same m') : Twin Machine.Same (fun _ => False) (enter m) (enter m') := by
  unfold Machine.enter
  simp only [h.config, h.depth]
  split
  · exact .error h
  · exact .ok ⟨h.store, h.spaces, rfl, rfl⟩

theorem Machine.Same.leave (h : m.Same m') : m.leave.Same m'.leave :=
  ⟨h.store, h.spaces, h.config, by rw [Machine.leave, h.depth]; rfl⟩

theorem twin_catching {x : RunM α} (h : Twin Machine.Same (fun _ => False) (x m) (x m')) :
    Twin Machine.Same (fun _ => False) (Fault.catching x m) (Fault.catching x m') := by
  unfold Fault.catching
  generalize x m = rx at h
  generalize x m' = ry at h
  cases h with
  | ok h => exact .ok h
  | cut h => exact h.elim
  | @error e _ _ h =>
    cases e with
    | error e => exact .ok h
    | crash | exhausted => exact .error h

/-- From states that are the same but for the record, a run ends alike, in such states. -/
theorem Composed.twin {x : RunM α} (hx : Composed space x) (h : m.Same m') :
    Twin Machine.Same (fun _ => False) (x m) (x m') := by
  induction hx generalizing m m' with
  | step hx => exact hx.twin h
  | bind _ _ ihx ihf => exact twin_bind (ihx h) fun a _ _ h' => ihf a h'
  | framed _ ih => exact twin_framed h.enter Machine.Same.leave fun _ _ h' => ih h'
  | catching _ ih => exact twin_catching (ih h)

end Same

/-! ## Calls -/

/-- What an engine can be asked to do. -/
inductive Entry : Type → Type
  | eval (form : Value) : Entry Value
  | evalObject (object : Ref) : Entry Value
  | evalList (forms : Option CellId) : Entry Value
  | evalArguments (forms : Option CellId) : Entry (List Value)
  | apply (operator : Ref) (forms : Option CellId) : Entry Value
  | send (receiver : Ref) (selector : Selector) (arguments : List Value) : Entry Value

/-- The run that answers a call. -/
def Entry.run {α : Type} (n : Nat) (space : SpaceId) : Entry α → RunM α
  | .eval form => ScriptCore.eval n space form
  | .evalObject object => ScriptCore.evalObject n space object
  | .evalList forms => ScriptCore.evalList n space forms
  | .evalArguments forms => ScriptCore.evalArguments n space forms
  | .apply operator forms => ScriptCore.apply n space operator forms
  | .send receiver selector arguments => ScriptCore.send n space receiver selector arguments

theorem Entry.composed {α : Type} (entry : Entry α) (n : Nat) (space : SpaceId) : Composed space (entry.run n space) := by
  have h := composes space n
  cases entry with
  | eval form => exact h.eval form
  | evalObject object => exact h.evalObject object
  | evalList forms => exact .bind (h.evalArguments forms) fun _ => composed_newList _
  | evalArguments forms => exact h.evalArguments forms
  | apply operator forms => exact h.apply operator forms
  | send receiver selector arguments => exact h.send receiver selector arguments

/-- Throughout a call the depth is that of the start and one for each open frame, and within the limit; so an engine
that was idle never has more frames open than the limit says, and the greatest depth on record is within the limit
too. When the call is over, however it ended, the depth is as before, and an engine that was idle answers the next
call like a new one with the same objects, names and limits. -/
theorem depth_restored {α β : Type} (entry : Entry α) (next : Entry β) (n n' : Nat) (space space' : SpaceId)
    (m : Machine) :
    Throughout space
      (fun frames s => s.depth = m.depth + frames ∧ s.depth ≤ max m.depth m.config.maxDepth.toNat)
      0 (entry.run n space) m ∧
    (m.depth = 0 → Throughout space (fun frames _ => frames ≤ m.config.maxDepth.toNat) 0 (entry.run n space) m) ∧
    (after (entry.run n space m)).deepest ≤ max m.deepest (max m.depth m.config.maxDepth.toNat) ∧
    (after (entry.run n space m)).depth = m.depth ∧
    (m.depth = 0 →
      let idle := after (entry.run n space m)
      let fresh := idle.reconfigure m.config
      outcome (next.run n' space' idle) = outcome (next.run n' space' fresh) ∧
        (after (next.run n' space' fresh)).Same (after (next.run n' space' idle))) := by
  have hstart : Counted m.depth m.config 0 m := ⟨rfl, rfl, Nat.le_max_left _ _⟩
  have hthroughout := (entry.composed n space).throughout hstart
  have hconfined := (entry.composed n space).confining m
  refine ⟨hthroughout.imp fun k s h => ⟨h.depth, h.limit⟩, fun hidle => ?_, hconfined.deepest, hconfined.depth,
    fun hidle => ?_⟩
  · refine hthroughout.imp fun k s h => ?_
    have hd := h.depth
    have hl := h.limit
    omega
  · have hsame : ((after (entry.run n space m)).reconfigure m.config).Same (after (entry.run n space m)) :=
      ⟨rfl, rfl, hconfined.config, hconfined.depth.trans hidle⟩
    exact ((next.composed n' space').twin hsame).uncut

/-- A machine for the form `(evalq (quote (boom)))`, whose argument is evaluated twice and crashes. -/
def crashingMachine : Machine where
  store :=
    { cells := #[{ car := some (.atom ⟨0⟩), cdr := some ⟨1⟩ }, { car := some (.cell ⟨2⟩) },
        { car := some (.atom ⟨1⟩), cdr := some ⟨3⟩ }, { car := some (.cell ⟨4⟩) }, { car := some (.atom ⟨2⟩) }]
      atoms := #[.datum (.symbol "evalq"), .datum (.symbol "quote"), .datum (.symbol "boom"),
        .builtin Host.evalq, .builtin CoreForm.quote.builtin, .builtin Host.boom] }
  spaces := ⟨#[{ bindings := ⟨[("evalq", some (.atom ⟨3⟩)), ("quote", some (.atom ⟨4⟩)), ("boom", some (.atom ⟨5⟩))]⟩ }]⟩
  config := { maxDepth := 3 }

/-- The crash comes in two open frames, after a third one had been open. The engine is idle afterwards, and
evaluates the argument `(quote (boom))` like a new one. -/
theorem depth_restored_crashing :
    eval 20 ⟨0⟩ (some (.cell ⟨0⟩)) crashingMachine = .error (.crash "boom") { crashingMachine with deepest := 3 } ∧
      outcome (eval 20 ⟨0⟩ (some (.cell ⟨2⟩)) { crashingMachine with deepest := 3 }) =
        outcome (eval 20 ⟨0⟩ (some (.cell ⟨2⟩)) crashingMachine) ∧
      outcome (eval 20 ⟨0⟩ (some (.cell ⟨2⟩)) crashingMachine) = .ok (some (.cell ⟨4⟩)) := by
  have hrun : eval 20 ⟨0⟩ (some (.cell ⟨0⟩)) crashingMachine =
      .error (.crash "boom") { crashingMachine with deepest := 3 } := rfl
  obtain ⟨-, -, -, -, hnext⟩ :=
    depth_restored (.eval (some (.cell ⟨0⟩))) (.eval (some (.cell ⟨2⟩))) 20 20 ⟨0⟩ ⟨0⟩ crashingMachine
  simp only [Entry.run, hrun, after] at hnext
  exact ⟨hrun, (hnext rfl).1, rfl⟩

end ScriptCore
