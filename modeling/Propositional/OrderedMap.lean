/-
Finite maps that remember the order in which their keys came. A key that is
bound again keeps its place: `keys_insert` says where keys stand,
`get?_insert_self` and `get?_insert_of_ne` say what they are bound to.
-/

namespace Propositional

/-- A finite map as the list of its entries; each key has one entry. -/
@[ext]
structure OrderedMap (κ : Type u) (α : Type v) where
  entries : List (κ × α)
  nodup_keys : (entries.map (·.1)).Nodup

namespace OrderedMap

variable {κ : Type u} {α : Type v}

instance [DecidableEq κ] [DecidableEq α] : DecidableEq (OrderedMap κ α) := fun m n =>
  if h : m.entries = n.entries then isTrue (OrderedMap.ext h)
  else isFalse fun e => h (congrArg entries e)

def empty : OrderedMap κ α := ⟨[], List.nodup_nil⟩

instance : Inhabited (OrderedMap κ α) := ⟨empty⟩

/-- The keys, in the order in which each was first bound. -/
def keys (m : OrderedMap κ α) : List κ := m.entries.map (·.1)

def size (m : OrderedMap κ α) : Nat := m.entries.length

@[simp] theorem keys_empty : (empty : OrderedMap κ α).keys = [] := rfl

variable [DecidableEq κ]

/-- What the first entry under `k` holds. -/
def lookup (k : κ) : List (κ × α) → Option α
  | [] => none
  | (k', v) :: rest => if k' = k then some v else lookup k rest

def get? (m : OrderedMap κ α) (k : κ) : Option α := lookup k m.entries

def contains (m : OrderedMap κ α) (k : κ) : Bool := (m.get? k).isSome

/-- The entries with `v` under `k`, in the place of `k` if it has one and last otherwise. -/
def place (k : κ) (v : α) : List (κ × α) → List (κ × α)
  | [] => [(k, v)]
  | (k', v') :: rest => if k' = k then (k, v) :: rest else (k', v') :: place k v rest

theorem map_fst_place (k : κ) (v : α) (es : List (κ × α)) :
    (place k v es).map (·.1) =
      if k ∈ es.map (·.1) then es.map (·.1) else es.map (·.1) ++ [k] := by
  induction es with
  | nil => rfl
  | cons e es ih =>
    obtain ⟨k', v'⟩ := e
    by_cases h : k' = k
    · simp [place, h]
    · have h' : ¬ k = k' := fun e => h e.symm
      simp only [place, if_neg h, List.map_cons, ih, List.mem_cons, h', false_or]
      split <;> simp

def insert (m : OrderedMap κ α) (k : κ) (v : α) : OrderedMap κ α :=
  ⟨place k v m.entries, by
    rw [map_fst_place]
    split
    · exact m.nodup_keys
    · rename_i h
      rw [List.nodup_append]
      refine ⟨m.nodup_keys, by simp, ?_⟩
      intro a ha b hb
      obtain rfl := List.mem_singleton.1 hb
      exact fun e => h (e ▸ ha)⟩

/-- The map that binds the listed keys one after the other. -/
def ofList (es : List (κ × α)) : OrderedMap κ α :=
  es.foldl (fun m e => m.insert e.1 e.2) empty

@[simp] theorem get?_empty (k : κ) : (empty : OrderedMap κ α).get? k = none := rfl

/-- A new key comes last, a known one keeps its place. -/
theorem keys_insert (m : OrderedMap κ α) (k : κ) (v : α) :
    (m.insert k v).keys = if k ∈ m.keys then m.keys else m.keys ++ [k] :=
  map_fst_place k v m.entries

theorem lookup_place_self (k : κ) (v : α) (es : List (κ × α)) :
    lookup k (place k v es) = some v := by
  induction es with
  | nil => simp [place, lookup]
  | cons e es ih =>
    obtain ⟨k', v'⟩ := e
    by_cases h : k' = k <;> simp [place, lookup, h, ih]

theorem lookup_place_of_ne {k k' : κ} (h : k' ≠ k) (v : α) (es : List (κ × α)) :
    lookup k' (place k v es) = lookup k' es := by
  induction es with
  | nil => simp [place, lookup, h.symm]
  | cons e es ih =>
    obtain ⟨k₁, v₁⟩ := e
    by_cases h₁ : k₁ = k
    · subst h₁
      simp [place, lookup, h.symm]
    · rw [place, if_neg h₁, lookup, lookup, ih]

@[simp] theorem get?_insert_self (m : OrderedMap κ α) (k : κ) (v : α) :
    (m.insert k v).get? k = some v :=
  lookup_place_self k v m.entries

theorem get?_insert_of_ne (m : OrderedMap κ α) {k k' : κ} (h : k' ≠ k) (v : α) :
    (m.insert k v).get? k' = m.get? k' :=
  lookup_place_of_ne h v m.entries

theorem lookup_isSome_iff (k : κ) (es : List (κ × α)) :
    (lookup k es).isSome ↔ k ∈ es.map (·.1) := by
  induction es with
  | nil => simp [lookup]
  | cons e es ih =>
    obtain ⟨k', v'⟩ := e
    by_cases h : k' = k
    · simp [lookup, h]
    · have h' : ¬ k = k' := fun e => h e.symm
      simp [lookup, h, h', ih]

theorem mem_of_lookup {k : κ} {v : α} {es : List (κ × α)} (h : lookup k es = some v) :
    (k, v) ∈ es := by
  induction es with
  | nil => simp [lookup] at h
  | cons e es ih =>
    obtain ⟨k', v'⟩ := e
    by_cases hk : k' = k
    · subst hk
      simp only [lookup, if_true, Option.some.injEq] at h
      simp [h]
    · rw [lookup, if_neg hk] at h
      exact List.mem_cons_of_mem _ (ih h)

theorem mem_entries_of_get? {m : OrderedMap κ α} {k : κ} {v : α} (h : m.get? k = some v) :
    (k, v) ∈ m.entries :=
  mem_of_lookup h

theorem lookup_of_mem {k : κ} {v : α} {es : List (κ × α)} (hnodup : (es.map (·.1)).Nodup)
    (h : (k, v) ∈ es) : lookup k es = some v := by
  induction es with
  | nil => cases h
  | cons e es ih =>
    obtain ⟨k', v'⟩ := e
    obtain ⟨hnew, hrest⟩ := List.nodup_cons.1 hnodup
    rcases List.mem_cons.1 h with he | h
    · cases he
      rw [lookup, if_pos rfl]
    · have hk : k' ≠ k := by
        rintro rfl
        exact hnew (List.mem_map.2 ⟨(k', v), h, rfl⟩)
      rw [lookup, if_neg hk, ih hrest h]

/-- What a key is bound to is what its entry holds. -/
theorem get?_eq_some_iff {m : OrderedMap κ α} {k : κ} {v : α} :
    m.get? k = some v ↔ (k, v) ∈ m.entries :=
  ⟨mem_of_lookup, lookup_of_mem m.nodup_keys⟩

theorem place_of_not_mem {k : κ} (v : α) {es : List (κ × α)} (h : k ∉ es.map (·.1)) :
    place k v es = es ++ [(k, v)] := by
  induction es with
  | nil => rfl
  | cons e es ih =>
    obtain ⟨k', v'⟩ := e
    simp only [List.map_cons, List.mem_cons, not_or] at h
    rw [place, if_neg (Ne.symm h.1), ih h.2, List.cons_append]

theorem entries_foldl_insert (m : OrderedMap κ α) (es : List (κ × α))
    (h : (m.keys ++ es.map (·.1)).Nodup) :
    (es.foldl (fun m e => m.insert e.1 e.2) m).entries = m.entries ++ es := by
  induction es generalizing m with
  | nil => simp
  | cons e es ih =>
    have hnew : e.1 ∉ m.entries.map (·.1) := by
      intro he
      exact (List.nodup_append.1 h).2.2 e.1 he e.1 (by simp) rfl
    have hentries : (m.insert e.1 e.2).entries = m.entries ++ [e] := place_of_not_mem e.2 hnew
    rw [List.foldl_cons, ih, hentries, List.append_assoc, List.singleton_append]
    rw [keys, hentries]
    simpa [keys] using h

/-- A list without repeated keys is the list of entries of its map. -/
theorem entries_ofList {es : List (κ × α)} (h : (es.map (·.1)).Nodup) :
    (ofList es).entries = es :=
  entries_foldl_insert empty es h

theorem contains_iff_mem_keys (m : OrderedMap κ α) (k : κ) : m.contains k ↔ k ∈ m.keys :=
  lookup_isSome_iff k m.entries

/-- A new key has its entry behind all others. -/
theorem entries_insert_new {m : OrderedMap κ α} {k : κ} (h : m.get? k = none) (v : α) :
    (m.insert k v).entries = m.entries ++ [(k, v)] := by
  refine place_of_not_mem v fun hk => ?_
  have hbound := (lookup_isSome_iff k m.entries).2 hk
  rw [← get?, h] at hbound
  cases hbound

end OrderedMap

end Propositional
