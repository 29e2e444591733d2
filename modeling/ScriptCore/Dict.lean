/-!
# Small maps

A map kept as a list of entries in the order in which their keys were first inserted. Inserting under a key
that is present replaces its value in place, so each key has at most one entry.
-/
namespace ScriptCore

/-- A map from keys to values. -/
structure Dict (κ ν : Type) where
  entries : List (κ × ν) := []

namespace Dict

variable {κ ν : Type} [DecidableEq κ]

/-- The map without keys. -/
def empty : Dict κ ν := {}

/-- The value under `k`. -/
def find? (d : Dict κ ν) (k : κ) : Option ν :=
  d.entries.lookup k

/-- Whether there is an entry under `k`. -/
def contains (d : Dict κ ν) (k : κ) : Bool :=
  (d.find? k).isSome

/-- `entries` with the value under `k` replaced, or with a new last entry. -/
def put (k : κ) (v : ν) : List (κ × ν) → List (κ × ν)
  | [] => [(k, v)]
  | e :: rest => if e.1 = k then (k, v) :: rest else e :: put k v rest

/-- Binds a key to a value, in place of what it was bound to. -/
def insert (d : Dict κ ν) (k : κ) (v : ν) : Dict κ ν :=
  ⟨put k v d.entries⟩

/-- Removes a key. -/
def erase (d : Dict κ ν) (k : κ) : Dict κ ν :=
  ⟨d.entries.filter fun e => e.1 ≠ k⟩

/-- The keys, each once. -/
def keys (d : Dict κ ν) : List κ :=
  d.entries.map Prod.fst

/-- The values, one for each key. -/
def values (d : Dict κ ν) : List ν :=
  d.entries.map Prod.snd

/-- The number of keys. -/
def size (d : Dict κ ν) : Nat :=
  d.entries.length

theorem lookup_cons_if (j : κ) (e : κ × ν) (l : List (κ × ν)) :
    (e :: l).lookup j = if j = e.1 then some e.2 else l.lookup j := by
  rcases e with ⟨i, u⟩
  rw [List.lookup_cons]
  by_cases h : j = i
  · simp [h]
  · simp [h, beq_eq_false_iff_ne.mpr h]

theorem lookup_put (k j : κ) (v : ν) (l : List (κ × ν)) :
    (put k v l).lookup j = if j = k then some v else l.lookup j := by
  induction l with
  | nil => exact lookup_cons_if j (k, v) []
  | cons e l ih =>
    rw [put]
    split
    · next he => rw [lookup_cons_if, lookup_cons_if, he]; split <;> rfl
    · next he =>
      rw [lookup_cons_if, lookup_cons_if, ih]
      by_cases hj : j = k
      · simp [hj, Ne.symm he]
      · simp [hj]

theorem find?_insert (d : Dict κ ν) (k j : κ) (v : ν) :
    (d.insert k v).find? j = if j = k then some v else d.find? j :=
  lookup_put k j v d.entries

/-! ## Entries

As long as the keys differ, an entry can be taken out of the values by its key. -/

theorem keys_put (k : κ) (v : ν) (l : List (κ × ν)) :
    (put k v l).map Prod.fst = if k ∈ l.map Prod.fst then l.map Prod.fst else l.map Prod.fst ++ [k] := by
  induction l with
  | nil => rfl
  | cons e l ih =>
    rw [put]
    by_cases h : e.1 = k
    · simp [h]
    · simp only [h, if_false, List.map_cons, ih, List.mem_cons, Ne.symm h, false_or]
      split <;> rfl

theorem nodup_keys_insert {d : Dict κ ν} (h : d.keys.Nodup) (k : κ) (v : ν) : (d.insert k v).keys.Nodup := by
  unfold keys insert at *
  rw [keys_put]
  split
  · exact h
  · next hk =>
    rw [List.nodup_append]
    refine ⟨h, by simp, fun a ha b hb => ?_⟩
    rw [List.mem_singleton.mp hb]
    exact fun e => hk (e ▸ ha)

theorem nodup_keys_erase {d : Dict κ ν} (h : d.keys.Nodup) (k : κ) : (d.erase k).keys.Nodup :=
  h.sublist (List.filter_sublist.map _)

theorem erase_of_find?_eq_none {d : Dict κ ν} {k : κ} (h : d.find? k = none) : d.erase k = d := by
  have hk : ∀ e ∈ d.entries, e.1 ≠ k := by
    intro e he hek
    simpa [hek] using List.lookup_eq_none_iff.mp h e he
  unfold erase
  rw [List.filter_eq_self.mpr (by simpa using hk)]

theorem find?_erase (d : Dict κ ν) (k j : κ) : (d.erase k).find? j = if j = k then none else d.find? j := by
  obtain ⟨l⟩ := d
  simp only [find?, erase]
  induction l with
  | nil => split <;> rfl
  | cons e l ih =>
    rw [lookup_cons_if, List.filter_cons]
    by_cases he : e.1 = k
    · rw [if_neg (by simpa using he), ih]
      split
      · rfl
      · next hj => rw [if_neg (by rw [he]; exact hj)]
    · rw [if_pos (by simpa using he), lookup_cons_if, ih]
      by_cases hj : j = k
      · rw [if_pos hj, if_pos hj, if_neg (by rw [hj]; exact Ne.symm he)]
      · rw [if_neg hj, if_neg hj]

theorem find?_erase_self (d : Dict κ ν) (k : κ) : (d.erase k).find? k = none := by
  rw [find?_erase, if_pos rfl]

theorem mem_keys_iff {d : Dict κ ν} {k : κ} : k ∈ d.keys ↔ ∃ v, d.find? k = some v := by
  obtain ⟨l⟩ := d
  simp only [find?, keys]
  induction l with
  | nil => simp
  | cons e l ih =>
    rw [lookup_cons_if, List.map_cons, List.mem_cons, ih]
    by_cases he : k = e.1
    · simp [he]
    · simp [he]

theorem mem_values_of_find? {d : Dict κ ν} {k : κ} {v : ν} (h : d.find? k = some v) : v ∈ d.values := by
  obtain ⟨l₁, l₂, hl, -⟩ := List.lookup_eq_some_iff.mp h
  simp [values, hl]

theorem values_perm_lookup {l : List (κ × ν)} (h : (l.map Prod.fst).Nodup) (k : κ) :
    (l.map Prod.snd).Perm ((l.lookup k).toList ++ (l.filter fun e => e.1 ≠ k).map Prod.snd) := by
  induction l with
  | nil => exact .nil
  | cons e l ih =>
    obtain ⟨he, hl⟩ := List.nodup_cons.mp h
    rw [lookup_cons_if]
    by_cases hk : k = e.1
    · have hfilter : (l.filter fun e => e.1 ≠ k) = l := by
        refine List.filter_eq_self.mpr fun e' he' => decide_eq_true fun hek => he ?_
        rw [← hk, ← hek]
        exact List.mem_map_of_mem he'
      rw [if_pos hk, List.filter_cons_of_neg (by simp [hk.symm]), hfilter]
      exact .refl _
    · have hne : e.1 ≠ k := Ne.symm hk
      simp only [hk, if_false, List.map_cons, List.filter_cons, hne, ne_eq, not_false_eq_true, decide_true, if_true]
      exact ((ih hl).cons e.2).trans List.perm_middle.symm

theorem values_perm_erase {d : Dict κ ν} (h : d.keys.Nodup) (k : κ) :
    d.values.Perm ((d.find? k).toList ++ (d.erase k).values) :=
  values_perm_lookup h k

theorem erase_put (k : κ) (v : ν) (l : List (κ × ν)) :
    ((put k v l).filter fun e => e.1 ≠ k) = l.filter fun e => e.1 ≠ k := by
  induction l with
  | nil => simp [put]
  | cons e l ih =>
    rw [put]
    by_cases h : e.1 = k
    · simp [h]
    · simp only [h, if_false, List.filter_cons, ih]

theorem values_insert_perm {d : Dict κ ν} (h : d.keys.Nodup) (k : κ) (v : ν) :
    (d.insert k v).values.Perm (v :: (d.erase k).values) := by
  have hp := values_perm_erase (nodup_keys_insert h k v) k
  rw [find?_insert, if_pos rfl] at hp
  have he : (d.insert k v).erase k = d.erase k := by simp only [erase, insert, erase_put]
  rwa [he] at hp

end Dict

end ScriptCore
