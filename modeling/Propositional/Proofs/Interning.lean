/-
Interning, over whole lists of names. A table only ever grows at its end
(`Grows`), so a name that is in it keeps its index in every later table
(`indexOf_of_grows`). `indexOf` and `name?` undo each other.
-/
import Propositional.Symbols
import Propositional.Token

namespace Propositional

namespace Symbols

/-- The later table begins with the names of the earlier one. -/
def Grows (s s' : Symbols) : Prop := s.names <+: s'.names

theorem Grows.refl (s : Symbols) : s.Grows s := List.prefix_rfl

theorem Grows.trans {a b c : Symbols} (h₁ : a.Grows b) (h₂ : b.Grows c) : a.Grows c :=
  List.IsPrefix.trans h₁ h₂

theorem Grows.mem {s s' : Symbols} (h : s.Grows s') {name : String} (hn : name ∈ s.names) :
    name ∈ s'.names :=
  h.subset hn

theorem grows_intern (s : Symbols) (name : String) : s.Grows (s.intern name).2 := by
  by_cases h : name ∈ s.names
  · rw [intern_known h]
    exact .refl s
  · rw [Grows, (intern_new h).2]
    exact List.prefix_append _ _

theorem mem_intern {s : Symbols} {name other : String} :
    other ∈ (s.intern name).2.names ↔ other ∈ s.names ∨ other = name := by
  by_cases h : name ∈ s.names
  · rw [intern_known h]
    refine ⟨.inl, ?_⟩
    rintro (ho | rfl)
    · exact ho
    · exact h
  · simp [(intern_new h).2]

/-- The table in which the listed names were interned one after the other. -/
def internAll (s : Symbols) (names : List String) : Symbols :=
  names.foldl (fun s name => (s.intern name).2) s

theorem internAll_nil (s : Symbols) : s.internAll [] = s := rfl

theorem internAll_cons (s : Symbols) (name : String) (names : List String) :
    s.internAll (name :: names) = (s.intern name).2.internAll names := rfl

theorem internAll_append (s : Symbols) (xs ys : List String) :
    s.internAll (xs ++ ys) = (s.internAll xs).internAll ys :=
  List.foldl_append

theorem grows_internAll (s : Symbols) (names : List String) : s.Grows (s.internAll names) := by
  induction names generalizing s with
  | nil => exact .refl s
  | cons name rest ih => exact (grows_intern s name).trans (ih _)

theorem mem_internAll {s : Symbols} {names : List String} {name : String} :
    name ∈ (s.internAll names).names ↔ name ∈ s.names ∨ name ∈ names := by
  induction names generalizing s with
  | nil => simp [internAll_nil]
  | cons n rest ih => rw [internAll_cons, ih, mem_intern, List.mem_cons, or_assoc]

/-- Interning known names changes nothing. -/
theorem internAll_known {s : Symbols} {names : List String} (h : ∀ n ∈ names, n ∈ s.names) :
    s.internAll names = s := by
  induction names with
  | nil => rfl
  | cons n rest ih =>
    rw [internAll_cons, intern_known (h n (by simp))]
    exact ih fun m hm => h m (by simp [hm])

/-! ## Indices and names -/

/-- The index of a name that is in the table. -/
def indexOf (s : Symbols) (name : String) : Int := ((s.index? name).getD 0 : Nat)

theorem position_append_of_mem {name : String} {xs : List String} (h : name ∈ xs)
    (ys : List String) : position name (xs ++ ys) = position name xs := by
  induction xs with
  | nil => simp at h
  | cons x xs ih =>
    by_cases hx : x = name
    · simp [position, hx]
    · have hmem : name ∈ xs := by simpa [Ne.symm hx] using h
      simp [position, hx, ih hmem]

theorem position_append_of_not_mem {name : String} {xs : List String} (h : name ∉ xs) :
    position name (xs ++ [name]) = some xs.length := by
  induction xs with
  | nil => simp [position]
  | cons x xs ih =>
    simp only [List.mem_cons, not_or] at h
    simp [position, Ne.symm h.1, ih h.2]

theorem indexOf_of_grows {s s' : Symbols} (h : s.Grows s') {name : String}
    (hn : name ∈ s.names) : s'.indexOf name = s.indexOf name := by
  obtain ⟨added, ha⟩ := h
  rw [indexOf, indexOf, index?, index?, ← ha, position_append_of_mem hn]

theorem name?_indexOf {s : Symbols} {name : String} (h : name ∈ s.names) :
    s.name? (s.indexOf name) = some name := by
  obtain ⟨i, hi⟩ := position_isSome h
  have hindex : s.indexOf name = (i : Nat) := by rw [indexOf, index?, hi, Option.getD_some]
  rw [hindex]
  exact position_eq_some hi

/-- An index in range has a name, and is the index of that name. -/
theorem name?_of_lt {s : Symbols} {i : Int} (h₀ : 0 ≤ i) (h : i < s.size) :
    ∃ name ∈ s.names, s.name? i = some name ∧ s.indexOf name = i := by
  obtain ⟨k, rfl⟩ := Int.eq_ofNat_of_zero_le h₀
  have hk : k < s.names.length := by
    rw [size] at h
    omega
  refine ⟨s.names[k], List.getElem_mem hk, List.getElem?_eq_getElem hk, ?_⟩
  obtain ⟨j, hj⟩ := position_isSome (List.getElem_mem hk)
  obtain ⟨hjl, hje⟩ := List.getElem?_eq_some_iff.1 (position_eq_some hj)
  have hjk : j = k := (List.getElem_inj s.nodup).1 hje
  rw [indexOf, index?, hj, Option.getD_some, hjk]

theorem mem_of_name? {s : Symbols} {i : Int} {name : String} (h : s.name? i = some name) :
    name ∈ s.names := by
  cases i with
  | ofNat k => exact List.mem_of_getElem? h
  | negSucc k => exact List.mem_reverse.1 (List.mem_of_getElem? h)

/-- The name with an index, where there is one. -/
def nameAt (s : Symbols) (i : Int) : String := (s.name? i).getD ""

theorem nameAt_indexOf {s : Symbols} {name : String} (h : name ∈ s.names) :
    s.nameAt (s.indexOf name) = name := by
  rw [nameAt, name?_indexOf h, Option.getD_some]

/-- The index that the name of an atom has in another table. -/
def renumbering (s s' : Symbols) (i : Int) : Int := s'.indexOf (s.nameAt i)

theorem renumbering_indexOf {s : Symbols} {name : String} (h : name ∈ s.names) (s' : Symbols) :
    s.renumbering s' (s.indexOf name) = s'.indexOf name := by
  rw [renumbering, nameAt_indexOf h]

/-- The index that interning answers with is that of the name from then on. -/
theorem intern_fst (s : Symbols) (name : String) :
    ((s.intern name).1 : Int) = (s.intern name).2.indexOf name := by
  by_cases h : name ∈ s.names
  · rw [intern_known h, indexOf]
    simp [intern, h]
  · have hnew := intern_new h
    rw [indexOf, index?, hnew.1, hnew.2, position_append_of_not_mem h, Option.getD_some, size]

end Symbols

/-- The texts of the identifiers among tokens, in order. -/
def Token.identifiers (tokens : List Token) : List String :=
  tokens.filterMap fun t => if t.kind = .identifier then some t.text else none

@[simp] theorem Token.identifiers_nil : identifiers [] = [] := rfl

@[simp] theorem Token.identifiers_append (xs ys : List Token) :
    identifiers (xs ++ ys) = identifiers xs ++ identifiers ys :=
  List.filterMap_append

theorem Token.identifiers_cons (t : Token) (ts : List Token) :
    identifiers (t :: ts) =
      if t.kind = .identifier then t.text :: identifiers ts else identifiers ts := by
  by_cases hk : t.kind = .identifier <;> simp [identifiers, hk]

namespace Symbols

/-- The table after the identifiers of some tokens have been interned. -/
def afterTokens (s : Symbols) (tokens : List Token) : Symbols :=
  s.internAll (Token.identifiers tokens)

theorem afterTokens_append (s : Symbols) (xs ys : List Token) :
    s.afterTokens (xs ++ ys) = (s.afterTokens xs).afterTokens ys := by
  simp only [afterTokens, Token.identifiers_append, internAll_append]

theorem afterTokens_sign (s : Symbols) {t : Token} (h : t.kind ≠ .identifier)
    (ts : List Token) : s.afterTokens (t :: ts) = s.afterTokens ts := by
  rw [afterTokens, Token.identifiers_cons, if_neg h, afterTokens]

theorem grows_afterTokens (s : Symbols) (tokens : List Token) : s.Grows (s.afterTokens tokens) :=
  grows_internAll ..

end Symbols

end Propositional
