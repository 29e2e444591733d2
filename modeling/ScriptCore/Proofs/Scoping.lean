import Mathlib
import ScriptCore.Proofs.Chain
import ScriptCore.Space

/-!
# Spaces over whole runs

Spaces are made inside one another, and names are bound and unbound in them in any order. What a space finds for a name
can be told from the requests alone (`find_overlay`): the space and those around it are asked in turn, and the first
of them decides for which the last change of the name was a binding.

`Bound log space name v` says that this last change was a binding to `v`, and `parentIn` which space a space was made
in. `Mirrors` ties the spaces that are there to the requests that were served.
-/
namespace ScriptCore

open Chain

/-- A request to make a space or to change a binding. A name is given by itself or by a text that stands for it. -/
inductive SpaceRequest (κ : Type) where
  | root
  | child (parent : SpaceId)
  | bind (space : SpaceId) (name : κ) (v : Value)
  | bindText (space : SpaceId) (text : String) (v : Value)
  | unbind (space : SpaceId) (name : κ)

/-- What is answered: the new space, or the value that was bound before. -/
inductive SpaceAnswer where
  | made (space : SpaceId)
  | previous (v : Option Value)

/-- What a name is bound to in a space from now on; `none` if it is unbound. -/
structure Change (κ : Type) where
  space : SpaceId
  name : κ
  value : Option Value

namespace SpaceRequest

variable {κ : Type}

/-- The space that a request names. -/
def space? : SpaceRequest κ → Option SpaceId
  | .root => none
  | .child space | .bind space _ _ | .bindText space _ _ | .unbind space _ => some space

/-- The place of the space that a request makes: in another one, or in none. -/
def place? : SpaceRequest κ → Option (Option SpaceId)
  | .root => some none
  | .child parent => some (some parent)
  | .bind _ _ _ | .bindText _ _ _ | .unbind _ _ => none

/-- The change that a request makes, with the name that each text stands for. -/
def change? (naming : String → κ) : SpaceRequest κ → Option (Change κ)
  | .root | .child _ => none
  | .bind space name v => some ⟨space, name, some v⟩
  | .bindText space text v => some ⟨space, naming text, some v⟩
  | .unbind space name => some ⟨space, name, none⟩

end SpaceRequest

namespace Spaces

variable {κ : Type} [DecidableEq κ] (naming : String → κ)

/-- Answers a request. -/
def serve (s : Spaces κ) : SpaceRequest κ → SpaceAnswer × Spaces κ
  | .root => (.made s.newRoot.1, s.newRoot.2)
  | .child parent => (.made (s.newChild parent).1, (s.newChild parent).2)
  | .bind space name v => (.previous (s.bind space name v).1, (s.bind space name v).2)
  | .bindText space text v => (.previous (s.bind space (naming text) v).1, (s.bind space (naming text) v).2)
  | .unbind space name => (.previous (s.unbind space name).1, (s.unbind space name).2)

/-- The spaces after a run. -/
def reached (requests : List (SpaceRequest κ)) : Spaces κ :=
  requests.foldl (fun s r => (s.serve naming r).2) {}

end Spaces

/-! ## What the requests say -/

section History

variable {κ : Type}

/-- The places of all spaces that a run makes, in order. -/
def places (requests : List (SpaceRequest κ)) : List (Option SpaceId) :=
  requests.filterMap SpaceRequest.place?

/-- The space that a space was made in. -/
def parentIn (requests : List (SpaceRequest κ)) (space : SpaceId) : Option SpaceId :=
  (places requests)[space.index]?.join

/-- The space was made in the run. -/
def MadeIn (requests : List (SpaceRequest κ)) (space : SpaceId) : Prop :=
  space.index < (places requests).length

/-- Every request names a space that was made before it. -/
def Proper (requests : List (SpaceRequest κ)) : Prop :=
  ∀ k < requests.length, ∀ space ∈ requests[k]?.bind SpaceRequest.space?, MadeIn (requests.take k) space

/-- The changes of a run, in order. -/
def changes (naming : String → κ) (requests : List (SpaceRequest κ)) : List (Change κ) :=
  requests.filterMap (SpaceRequest.change? naming)

/-- The last change of the name in the space was a binding to the value. -/
def Bound (log : List (Change κ)) (space : SpaceId) (name : κ) (v : Value) : Prop :=
  ∃ before later, log = before ++ ⟨space, name, some v⟩ :: later ∧
    ∀ c ∈ later, ¬ (c.space = space ∧ c.name = name)

variable {requests : List (SpaceRequest κ)} {r : SpaceRequest κ} {space : SpaceId}

instance (space : SpaceId) : Decidable (MadeIn requests space) :=
  inferInstanceAs (Decidable (_ < _))

instance : Decidable (Proper requests) :=
  inferInstanceAs (Decidable (∀ k < requests.length, _))

theorem proper_concat (h : Proper (requests ++ [r])) : Proper requests ∧ ∀ space ∈ r.space?, MadeIn requests space := by
  constructor
  · intro k hk space hspace
    have hmade := h k (by simp; omega) space (by rwa [List.getElem?_append_left hk])
    rwa [List.take_append_of_le_length (Nat.le_of_lt hk)] at hmade
  · intro space hspace
    have hmade := h requests.length (by simp) space (by simpa using hspace)
    rwa [List.take_left] at hmade

theorem parentIn_concat (hspace : MadeIn requests space) :
    parentIn (requests ++ [r]) space = parentIn requests space := by
  rw [parentIn, parentIn, places, List.filterMap_append, ← places, List.getElem?_append_left hspace]

theorem madeIn_concat {place : Option SpaceId} (hplace : r.place? = some place) :
    MadeIn (requests ++ [r]) space ↔ MadeIn requests space ∨ space = ⟨(places requests).length⟩ := by
  have hplaces : places (requests ++ [r]) = places requests ++ [place] := by simp [places, hplace]
  rcases space with ⟨i⟩
  rw [MadeIn, MadeIn, hplaces, List.length_append, List.length_singleton, SpaceId.mk.injEq]
  exact Nat.lt_succ_iff_lt_or_eq

theorem bound_concat (log : List (Change κ)) (c : Change κ) (space : SpaceId) (name : κ) (v : Value) :
    Bound (log ++ [c]) space name v ↔
      (c.space = space ∧ c.name = name) ∧ c.value = some v ∨
      ¬ (c.space = space ∧ c.name = name) ∧ Bound log space name v := by
  constructor
  · rintro ⟨before, later, hlog, hlater⟩
    rcases List.eq_nil_or_concat later with rfl | ⟨later, last, rfl⟩
    · obtain ⟨-, hc⟩ := List.append_inj' hlog rfl
      obtain rfl := List.singleton_inj.mp hc
      exact .inl ⟨⟨rfl, rfl⟩, rfl⟩
    · rw [List.concat_eq_append, ← List.cons_append, ← List.append_assoc] at hlog
      obtain ⟨hfront, hc⟩ := List.append_inj' hlog rfl
      obtain rfl := List.singleton_inj.mp hc
      rw [List.concat_eq_append] at hlater
      exact .inr ⟨hlater c (by simp), before, later, hfront, fun d hd => hlater d (by simp [hd])⟩
  · rintro (⟨⟨rfl, rfl⟩, hv⟩ | ⟨hc, before, later, rfl, hlater⟩)
    · refine ⟨log, [], ?_, by simp⟩
      rw [← hv]
    · refine ⟨before, later ++ [c], by simp, fun d hd => ?_⟩
      rcases List.mem_append.mp hd with hd | hd
      · exact hlater d hd
      · rwa [List.mem_singleton.mp hd]

end History

/-! ## One request -/

section Serving

variable {κ : Type} [DecidableEq κ] {naming : String → κ} {s : Spaces κ} {r : SpaceRequest κ}

/-- The bindings of a space after a change in it. -/
def Change.on (c : Change κ) (d : Dict κ Value) : Dict κ Value :=
  match c.value with
  | some v => d.insert c.name v
  | none => d.erase c.name

theorem Change.find?_on (c : Change κ) (d : Dict κ Value) (name : κ) :
    (c.on d).find? name = if name = c.name then c.value else d.find? name := by
  unfold Change.on
  split
  · next v hv => rw [Dict.find?_insert, hv]
  · next hv => rw [Dict.find?_erase, hv]

theorem Change.nodup_keys_on (c : Change κ) {d : Dict κ Value} (h : d.keys.Nodup) : (c.on d).keys.Nodup := by
  unfold Change.on
  split
  · exact Dict.nodup_keys_insert h _ _
  · exact Dict.nodup_keys_erase h _

namespace Spaces

theorem reached_concat (requests : List (SpaceRequest κ)) (r : SpaceRequest κ) :
    reached naming (requests ++ [r]) = ((reached naming requests).serve naming r).2 := by
  rw [reached, List.foldl_append]
  rfl

/-- A request either changes a binding or makes a space. -/
theorem serve_cases (naming : String → κ) (s : Spaces κ) (r : SpaceRequest κ) :
    (∃ c, r.change? naming = some c ∧ r.place? = none ∧ r.space? = some c.space ∧
      s.serve naming r = (.previous (s.findHere? c.space c.name), s.modify c.space c.on)) ∨
    (∃ place, r.change? naming = none ∧ r.place? = some place ∧ r.space? = place ∧
      s.serve naming r = (.made ⟨s.spaces.size⟩,
        (s.add { enclosing := place.toList.flatMap fun p => p :: (s.space p).enclosing }).2)) := by
  cases r with
  | root => exact .inr ⟨none, rfl, rfl, rfl, rfl⟩
  | child parent => exact .inr ⟨some parent, rfl, rfl, rfl, by simp [serve, newChild, add]⟩
  | bind space name v => exact .inl ⟨⟨space, name, some v⟩, rfl, rfl, rfl, rfl⟩
  | bindText space text v => exact .inl ⟨⟨space, naming text, some v⟩, rfl, rfl, rfl, rfl⟩
  | unbind space name => exact .inl ⟨⟨space, name, none⟩, rfl, rfl, rfl, rfl⟩

theorem serve_of_change (s : Spaces κ) {c : Change κ} (h : r.change? naming = some c) :
    s.serve naming r = (.previous (s.findHere? c.space c.name), s.modify c.space c.on) := by
  obtain ⟨d, hd, -, -, hserve⟩ | ⟨place, hnone, -⟩ := serve_cases naming s r
  · obtain rfl : d = c := Option.some.inj (hd.symm.trans h)
    exact hserve
  · rw [hnone] at h
    cases h

theorem findHere?_change (c : Change κ) (hc : c.space.index < s.spaces.size) (i : SpaceId) (name : κ) :
    (s.modify c.space c.on).findHere? i name =
      if c.space = i ∧ c.name = name then c.value else s.findHere? i name := by
  rw [findHere?_modify]
  by_cases hi : c.space = i
  · subst hi
    rw [if_pos ⟨rfl, hc⟩, Change.find?_on]
    by_cases hname : c.name = name
    · rw [if_pos hname.symm, if_pos ⟨rfl, hname⟩]
    · rw [if_neg (Ne.symm hname), if_neg fun h => hname h.2]
      rfl
  · rw [if_neg fun h => hi h.1.symm, if_neg fun h => hi h.1]

end Spaces

end Serving

/-! ## Whole runs -/

section Runs

variable {κ : Type} [DecidableEq κ] {naming : String → κ} {requests : List (SpaceRequest κ)} {r : SpaceRequest κ}
  {s : Spaces κ}

/-- The spaces are what the requests say: a space lies in those that its parents lead to, and it binds what was bound
in it last. -/
structure Mirrors (naming : String → κ) (requests : List (SpaceRequest κ)) (s : Spaces κ) : Prop where
  size : s.spaces.size = (places requests).length
  around : ∀ i, MadeIn requests i → ∀ j ∈ (s.space i).enclosing, MadeIn requests j
  path : ∀ i, MadeIn requests i → Ends (parentIn requests) i (i :: (s.space i).enclosing)
  here : ∀ i name v, s.findHere? i name = some v ↔ Bound (changes naming requests) i name v
  keys : ∀ i, (s.space i).bindings.keys.Nodup

theorem mirrors_nil : Mirrors naming [] {} where
  size := rfl
  around i hi := absurd hi (Nat.not_lt_zero _)
  path i hi := absurd hi (Nat.not_lt_zero _)
  here i name v := by
    constructor
    · intro h
      simp [Spaces.findHere?, Spaces.space, Dict.find?] at h
    · rintro ⟨before, later, hlog, -⟩
      simp [changes] at hlog
  keys i := by simp [Spaces.space, Dict.keys]

theorem Mirrors.change (h : Mirrors naming requests s) {c : Change κ} (hchange : r.change? naming = some c)
    (hplace : r.place? = none) (hc : MadeIn requests c.space) :
    Mirrors naming (requests ++ [r]) (s.modify c.space c.on) := by
  have hplaces : places (requests ++ [r]) = places requests := by simp [places, hplace]
  have hparent : parentIn (requests ++ [r]) = parentIn requests := by
    funext i
    rw [parentIn, hplaces, parentIn]
  have hmade : MadeIn (requests ++ [r]) = MadeIn requests := by
    funext i
    rw [MadeIn, hplaces, MadeIn]
  have hlog : changes naming (requests ++ [r]) = changes naming requests ++ [c] := by simp [changes, hchange]
  constructor
  · rw [Spaces.size_modify, hplaces, h.size]
  · intro i hi j hj
    rw [hmade] at hi ⊢
    rw [Spaces.enclosing_modify] at hj
    exact h.around i hi j hj
  · intro i hi
    rw [hmade] at hi
    rw [hparent, Spaces.enclosing_modify]
    exact h.path i hi
  · intro i name v
    rw [hlog, bound_concat, Spaces.findHere?_change c (by rw [h.size]; exact hc), ← h.here i name v]
    by_cases hsame : c.space = i ∧ c.name = name
    · simp [hsame]
    · simp only [hsame, if_false, false_and, not_false_eq_true, true_and, false_or]
  · intro i
    rw [Spaces.space_modify]
    split
    · exact c.nodup_keys_on (h.keys i)
    · exact h.keys i

/-- What is asked next does not change the paths that are there. -/
theorem Mirrors.path_concat (h : Mirrors naming requests s) (r : SpaceRequest κ) {i : SpaceId}
    (hi : MadeIn requests i) : Ends (parentIn (requests ++ [r])) i (i :: (s.space i).enclosing) := by
  refine (h.path i hi).congr fun j hj => parentIn_concat ?_
  rcases List.mem_cons.mp hj with rfl | hj
  · exact hi
  · exact h.around i hi j hj

theorem Mirrors.make (h : Mirrors naming requests s) {place : Option SpaceId} (hchange : r.change? naming = none)
    (hplace : r.place? = some place) (hmade : ∀ p ∈ place, MadeIn requests p) :
    Mirrors naming (requests ++ [r])
      (s.add { enclosing := place.toList.flatMap fun p => p :: (s.space p).enclosing }).2 := by
  have hplaces : places (requests ++ [r]) = places requests ++ [place] := by simp [places, hplace]
  have hlog : changes naming (requests ++ [r]) = changes naming requests := by simp [changes, hchange]
  have hold : ∀ i, MadeIn requests i → i ≠ ⟨s.spaces.size⟩ := by
    rintro i hi rfl
    rw [MadeIn, h.size] at hi
    exact Nat.lt_irrefl _ hi
  constructor
  · simp [Spaces.add, hplaces, h.size]
  · intro i hi j hj
    rw [madeIn_concat hplace]
    rw [Spaces.space_add] at hj
    rcases (madeIn_concat hplace).mp hi with hi | rfl
    · rw [if_neg (hold i hi)] at hj
      exact .inl (h.around i hi j hj)
    · -- around the new space lie its parent and what lies around that
      rw [← h.size, if_pos rfl] at hj
      obtain ⟨p, hp, hj⟩ := List.mem_flatMap.mp hj
      have hp := hmade p (by simpa using hp)
      rcases List.mem_cons.mp hj with rfl | hj
      · exact .inl hp
      · exact .inl (h.around p hp j hj)
  · intro i hi
    rw [Spaces.space_add]
    rcases (madeIn_concat hplace).mp hi with hi | rfl
    · rw [if_neg (hold i hi)]
      exact h.path_concat r hi
    · have hparent : parentIn (requests ++ [r]) ⟨(places requests).length⟩ = place := by simp [parentIn, hplaces]
      rw [← h.size, if_pos rfl, h.size, ends_cons_iff, hparent]
      refine ⟨rfl, ?_⟩
      cases place with
      | none => rfl
      | some p =>
        rw [Option.toList_some, List.flatMap_singleton]
        exact h.path_concat r (hmade p rfl)
  · intro i name v
    rw [Spaces.findHere?, Spaces.bindings_add, hlog]
    exact h.here i name v
  · intro i
    rw [Spaces.bindings_add]
    exact h.keys i

theorem Mirrors.serve (h : Mirrors naming requests s) (hr : ∀ space ∈ r.space?, MadeIn requests space) :
    Mirrors naming (requests ++ [r]) (s.serve naming r).2 := by
  obtain ⟨c, hchange, hplace, hspace, hserve⟩ | ⟨place, hchange, hplace, hspace, hserve⟩ :=
    Spaces.serve_cases naming s r
  · rw [hserve]
    exact h.change hchange hplace (hr _ hspace)
  · rw [hserve]
    exact h.make hchange hplace (hspace ▸ hr)

theorem mirrors_reached (h : Proper requests) : Mirrors naming requests (Spaces.reached naming requests) := by
  induction requests using List.reverseRecOn with
  | nil => exact mirrors_nil
  | append_singleton requests r ih =>
    obtain ⟨hproper, hr⟩ := proper_concat h
    rw [Spaces.reached_concat]
    exact (ih hproper).serve hr

theorem Mirrors.here_eq_none (h : Mirrors naming requests s) {i : SpaceId} {name : κ} :
    s.findHere? i name = none ↔ ∀ v, ¬ Bound (changes naming requests) i name v := by
  simp only [← h.here, Option.eq_none_iff_forall_ne_some, Ne]

theorem Mirrors.find?_eq_some (h : Mirrors naming requests s) {i : SpaceId} {name : κ} {v : Value} :
    s.find? i name = some v ↔ ∃ near owner far, i :: (s.space i).enclosing = near ++ owner :: far ∧
      Bound (changes naming requests) owner name v ∧ ∀ j ∈ near, ∀ u, ¬ Bound (changes naming requests) j name u := by
  simp only [Spaces.find?, List.findSome?_eq_some_iff, h.here, h.here_eq_none]

theorem Mirrors.find?_eq_none (h : Mirrors naming requests s) {i : SpaceId} {name : κ} :
    s.find? i name = none ↔
      ∀ j ∈ i :: (s.space i).enclosing, ∀ u, ¬ Bound (changes naming requests) j name u := by
  simp only [Spaces.find?, List.findSome?_eq_none_iff, h.here_eq_none]

theorem Mirrors.size_eq (h : Mirrors naming requests s) (i : SpaceId) :
    s.size i = {name | ∃ v, Bound (changes naming requests) i name v}.ncard := by
  have hkeys : {name | ∃ v, Bound (changes naming requests) i name v} =
      ((s.space i).bindings.keys.toFinset : Set κ) := by
    ext name
    simp only [← h.here, Set.mem_ofPred_eq, List.coe_toFinset, Dict.mem_keys_iff]
    rfl
  rw [hkeys, Set.ncard_coe_finset, List.toFinset_card_of_nodup (h.keys i)]
  simp [Spaces.size, Dict.size, Dict.keys]

/-- Asking one after another gives another answer only if one is asked whose answer has changed, and none in front of
it has an answer. -/
theorem near_of_findSome?_ne {α β : Type} {f g : α → Option β} {a : α} (h : ∀ x, x ≠ a → g x = f x) {l : List α}
    (hne : l.findSome? g ≠ l.findSome? f) : ∃ near far, l = near ++ a :: far ∧ ∀ x ∈ near, f x = none := by
  induction l with
  | nil => exact absurd rfl hne
  | cons x l ih =>
    by_cases hx : x = a
    · exact ⟨[], l, by rw [hx]; rfl, by simp⟩
    · rw [List.findSome?_cons, List.findSome?_cons, h x hx] at hne
      cases hfx : f x with
      | some b => simp [hfx] at hne
      | none =>
        simp only [hfx] at hne
        obtain ⟨near, far, rfl, hnear⟩ := ih hne
        refine ⟨x :: near, far, rfl, fun y hy => ?_⟩
        rcases List.mem_cons.mp hy with rfl | hy
        · exact hfx
        · exact hnear y hy

/-- Where a change is seen. -/
theorem Mirrors.change_seen (h : Mirrors naming requests s) {c : Change κ} (hc : MadeIn requests c.space)
    {i : SpaceId} {name : κ} (hne : (s.modify c.space c.on).find? i name ≠ s.find? i name) :
    name = c.name ∧ ∃ near far, i :: (s.space i).enclosing = near ++ c.space :: far ∧
      ∀ j ∈ near, ∀ u, ¬ Bound (changes naming requests) j name u := by
  have hsize : c.space.index < s.spaces.size := by
    rw [h.size]
    exact hc
  rw [Spaces.find?, Spaces.find?, Spaces.enclosing_modify] at hne
  have hname : name = c.name := by
    by_contra hother
    refine hne (congrArg (List.findSome? · _) (funext fun j => ?_))
    rw [Spaces.findHere?_change c hsize, if_neg fun hj => hother hj.2.symm]
  have hothers : ∀ j, j ≠ c.space → (s.modify c.space c.on).findHere? j name = s.findHere? j name := by
    intro j hj
    rw [Spaces.findHere?_change c hsize, if_neg fun hs => hj hs.1.symm]
  obtain ⟨near, far, hpath, hnear⟩ := near_of_findSome?_ne hothers hne
  exact ⟨hname, near, far, hpath, fun j hj => h.here_eq_none.mp (hnear j hj)⟩

/-- What is found after any run. The parents of a space, from itself outwards, are a path that ends. On it the nearest
space decides in which the last change of the name was a binding, to nil or to anything else, and without such a space
nothing is found; the other questions have the answers that go with that. A change is answered with the value
that the name was bound to in that very space, and it is seen for no other name, and only from spaces that have the
changed one on their path and no binding of the name in front of it. -/
theorem find_overlay [ToString κ] (naming : String → κ) (requests : List (SpaceRequest κ)) (h : Proper requests) :
    (∀ space, MadeIn requests space → ∃ path, Ends (parentIn requests) space path ∧ ∀ name,
      (∀ v, (Spaces.reached naming requests).find? space name = some v ↔
        ∃ near owner far, path = near ++ owner :: far ∧ Bound (changes naming requests) owner name v ∧
          ∀ i ∈ near, ∀ u, ¬ Bound (changes naming requests) i name u) ∧
      ((Spaces.reached naming requests).find? space name = none ↔
        ∀ i ∈ path, ∀ u, ¬ Bound (changes naming requests) i name u)) ∧
    (∀ space name,
      ((Spaces.reached naming requests).binds space name = true ↔
        ∃ v, (Spaces.reached naming requests).find? space name = some v) ∧
      ((Spaces.reached naming requests).bindsHere space name = true ↔
        ∃ v, Bound (changes naming requests) space name v) ∧
      (Spaces.reached naming requests).lookup space name =
        ((Spaces.reached naming requests).find? space name).elim (.error (.unboundSymbol (toString name))) .ok) ∧
    (∀ space, (Spaces.reached naming requests).size space =
      {name | ∃ v, Bound (changes naming requests) space name v}.ncard) ∧
    ∀ r c, SpaceRequest.change? naming r = some c → MadeIn requests c.space →
      (∃ old, ((Spaces.reached naming requests).serve naming r).1 = .previous old ∧
        ∀ u, old = some u ↔ Bound (changes naming requests) c.space c.name u) ∧
      ∀ space name, MadeIn requests space →
        ((Spaces.reached naming requests).serve naming r).2.find? space name ≠
          (Spaces.reached naming requests).find? space name →
        name = c.name ∧ ∃ near far, Ends (parentIn requests) space (near ++ c.space :: far) ∧
          ∀ i ∈ near, ∀ u, ¬ Bound (changes naming requests) i name u := by
  have hm : Mirrors naming requests (Spaces.reached naming requests) := mirrors_reached h
  refine ⟨fun space hspace => ⟨_, hm.path space hspace, fun name => ⟨fun v => hm.find?_eq_some, hm.find?_eq_none⟩⟩,
    fun space name => ⟨Option.isSome_iff_exists, ?_, ?_⟩, hm.size_eq, fun r c hchange hc => ?_⟩
  · rw [Spaces.bindsHere, Dict.contains, Option.isSome_iff_exists]
    exact exists_congr fun v => hm.here space name v
  · unfold Spaces.lookup
    cases (Spaces.reached naming requests).find? space name <;> rfl
  · rw [Spaces.serve_of_change _ hchange]
    refine ⟨⟨_, rfl, hm.here c.space c.name⟩, fun space name hspace hne => ?_⟩
    obtain ⟨hname, near, far, hpath, hnear⟩ := hm.change_seen hc hne
    exact ⟨hname, near, far, hpath ▸ hm.path space hspace, hnear⟩

/-- A space in a space in a space. The name is bound in each of them, to nil in the middle one, and unbound again in
the innermost one. -/
def nested : List (SpaceRequest String) :=
  [.root, .child ⟨0⟩, .child ⟨1⟩, .bind ⟨0⟩ "x" (some (.atom ⟨0⟩)), .bindText ⟨1⟩ "x" none,
    .bind ⟨2⟩ "x" (some (.atom ⟨1⟩)), .unbind ⟨2⟩ "x"]

theorem find_overlay_nested :
    Proper nested ∧ (Spaces.reached id nested).find? ⟨2⟩ "x" = some none ∧
    (∃ path, Ends (parentIn nested) ⟨2⟩ path ∧ ∃ near owner far, path = near ++ owner :: far ∧
      Bound (changes id nested) owner "x" none ∧ ∀ i ∈ near, ∀ u, ¬ Bound (changes id nested) i "x" u) ∧
    ∃ near far, Ends (parentIn nested) ⟨2⟩ (near ++ ⟨1⟩ :: far) ∧
      ∀ i ∈ near, ∀ u, ¬ Bound (changes id nested) i "x" u := by
  have hproper : Proper nested := by decide
  have hfind : (Spaces.reached id nested).find? ⟨2⟩ "x" = some none := by decide
  have hchanged : ((Spaces.reached id nested).serve id (.unbind ⟨1⟩ "x")).2.find? ⟨2⟩ "x" ≠
      (Spaces.reached id nested).find? ⟨2⟩ "x" := by decide
  obtain ⟨hpath, -, -, hchange⟩ := find_overlay id nested hproper
  obtain ⟨path, hends, hname⟩ := hpath ⟨2⟩ (by decide)
  obtain ⟨-, hseen⟩ := hchange (.unbind ⟨1⟩ "x") ⟨⟨1⟩, "x", none⟩ rfl (by decide)
  exact ⟨hproper, hfind, ⟨path, hends, ((hname "x").1 none).mp hfind⟩, (hseen ⟨2⟩ "x" (by decide) hchanged).2⟩

end Runs

end ScriptCore
