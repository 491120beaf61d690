import Mathlib.Data.List.AList

/-!
# Finite maps

A `DenseMap` or `std::map`, as Mathlib's association lists without repeated keys. Reading through
`operator[]` creates the missing key, so it has its own operation here, `touch`.
-/

namespace MSV

/-- A loop that adds elements, seen through what one round of it adds. -/
theorem foldl_adds {α β : Type*} {f : β → α → β} {Q : β → Prop} {P : α → Prop}
    (h : ∀ b a, Q (f b a) ↔ Q b ∨ P a) (l : List α) (b : β) :
    Q (l.foldl f b) ↔ Q b ∨ ∃ a ∈ l, P a := by
  induction l generalizing b with
  | nil => simp
  | cons a l ih => rw [List.foldl_cons, ih, h, or_assoc, List.exists_mem_cons_iff]

/-- A finite map from `K` to `V`. -/
abbrev FMap (K : Type*) (V : Type*) := AList (fun _ : K => V)

namespace FMap

variable {K V : Type*} [DecidableEq K]

/-- `m.find(k)`. -/
def find (m : FMap K V) (k : K) : Option V := m.lookup k

/-- `m[k] = v`. -/
def set (m : FMap K V) (k : K) (v : V) : FMap K V := m.insert k v

/-- The value `m[k]` reads: the default value when the key is missing. -/
def get [Inhabited V] (m : FMap K V) (k : K) : V := (m.find k).getD default

/-- The map after reading `m[k]`, which creates a missing key. -/
def touch [Inhabited V] (m : FMap K V) (k : K) : FMap K V := m.set k (m.get k)

/-- `m.size()`. -/
def size (m : FMap K V) : Nat := m.entries.length

def isEmpty (m : FMap K V) : Bool := m.entries.isEmpty

/-- The key is present. -/
def has (m : FMap K V) (k : K) : Prop := k ∈ m

instance (m : FMap K V) (k : K) : Decidable (m.has k) := inferInstanceAs (Decidable (k ∈ m))

@[simp] theorem find_empty (k : K) : find (∅ : FMap K V) k = none := rfl

theorem find_set (m : FMap K V) (k k' : K) (v : V) :
    (m.set k v).find k' = if k' = k then some v else m.find k' := by
  by_cases h : k' = k
  · subst h; simp [find, set]
  · simp [find, set, h]

@[simp] theorem find_set_self (m : FMap K V) (k : K) (v : V) : (m.set k v).find k = some v := by
  simp [find_set]

theorem find_set_ne (m : FMap K V) {k k' : K} (v : V) (h : k' ≠ k) :
    (m.set k v).find k' = m.find k' := by
  simp [find_set, h]

theorem has_iff_find {m : FMap K V} {k : K} : m.has k ↔ ∃ v, m.find k = some v := by
  rw [has, find, ← AList.lookup_isSome, Option.isSome_iff_exists]

theorem not_has_iff_find {m : FMap K V} {k : K} : ¬ m.has k ↔ m.find k = none := by
  rw [has, find, AList.lookup_eq_none]

theorem has_set {m : FMap K V} {k k' : K} {v : V} : (m.set k v).has k' ↔ k' = k ∨ m.has k' := by
  simp only [has, set, AList.mem_insert]

theorem has_set_of_has {m : FMap K V} {k k' : K} (v : V) (h : m.has k') : (m.set k v).has k' :=
  has_set.mpr (Or.inr h)

@[simp] theorem has_set_self (m : FMap K V) (k : K) (v : V) : (m.set k v).has k :=
  has_set.mpr (Or.inl rfl)

omit [DecidableEq K] in
@[simp] theorem not_has_empty (k : K) : ¬ (∅ : FMap K V).has k := AList.notMem_empty k

theorem has_of_find {m : FMap K V} {k : K} {v : V} (h : m.find k = some v) : m.has k :=
  has_iff_find.mpr ⟨v, h⟩

theorem find_of_mem {m : FMap K V} {e : Sigma fun _ : K => V} (h : e ∈ m.entries) :
    m.find e.1 = some e.2 :=
  List.mem_dlookup m.nodupKeys h

omit [DecidableEq K] in
theorem mem_keys_iff_has {m : FMap K V} {k : K} : (∃ e ∈ m.entries, e.1 = k) ↔ m.has k := by
  show _ ↔ k ∈ m.entries.keys
  rw [List.mem_keys]
  constructor
  · rintro ⟨⟨k', v⟩, he, rfl⟩
    exact ⟨v, he⟩
  · rintro ⟨v, hv⟩
    exact ⟨⟨k, v⟩, hv, rfl⟩

omit [DecidableEq K] in
/-- A loop that adds keys. -/
theorem has_foldl {ι : Type*} {f : FMap K V → ι → FMap K V} {P : ι → Prop} {k : K}
    (h : ∀ m x, (f m x).has k ↔ m.has k ∨ P x) (l : List ι) (m : FMap K V) :
    (l.foldl f m).has k ↔ m.has k ∨ ∃ x ∈ l, P x :=
  foldl_adds (Q := fun m : FMap K V => m.has k) h l m

/-! ## Folding one map into another -/

variable {W : Type*}

/-- Visit every entry of `src`, rewriting the same key of `dest` from its old value. -/
def foldInto (g : K → Option V → W → V) (dest : FMap K V) (src : FMap K W) : FMap K V :=
  src.entries.foldl (fun m e => m.set e.1 (g e.1 (m.find e.1) e.2)) dest

theorem find_foldl_set (g : K → Option V → W → V) (k : K) :
    ∀ (l : List (Sigma fun _ : K => W)) (m : FMap K V), l.NodupKeys →
      find (l.foldl (fun m e => m.set e.1 (g e.1 (m.find e.1) e.2)) m) k =
        match l.dlookup k with
        | some w => some (g k (m.find k) w)
        | none => m.find k := by
  intro l
  induction l with
  | nil => intro m _; rfl
  | cons e l ih =>
      obtain ⟨k', w⟩ := e
      intro m hnd
      rw [List.nodupKeys_cons] at hnd
      rw [List.foldl_cons, ih _ hnd.2]
      by_cases h : k = k'
      · subst h
        rw [List.dlookup_eq_none.mpr hnd.1, List.dlookup_cons_eq]
        exact find_set_self ..
      · rw [List.dlookup_cons_ne l ⟨k', w⟩ h]
        show (match l.dlookup k with
          | some w' => some (g k ((m.set k' _).find k) w')
          | none => (m.set k' _).find k) = _
        rw [find_set_ne _ _ h]

/-- What `foldInto` leaves under a key. -/
theorem find_foldInto (g : K → Option V → W → V) (dest : FMap K V) (src : FMap K W) (k : K) :
    (foldInto g dest src).find k =
      match src.find k with
      | some w => some (g k (dest.find k) w)
      | none => dest.find k :=
  find_foldl_set g k src.entries dest src.nodupKeys

theorem has_foldInto (g : K → Option V → W → V) (dest : FMap K V) (src : FMap K W) (k : K) :
    (foldInto g dest src).has k ↔ dest.has k ∨ src.has k := by
  rw [has_iff_find, find_foldInto]
  cases hsrc : src.find k with
  | some w => exact iff_of_true ⟨_, rfl⟩ (Or.inr (has_of_find hsrc))
  | none => rw [← has_iff_find, or_iff_left (not_has_iff_find.mpr hsrc)]

variable [Inhabited V]

theorem find_touch (m : FMap K V) (k k' : K) :
    (m.touch k).find k' = if k' = k then some (m.get k) else m.find k' := find_set ..

theorem has_touch {m : FMap K V} {k k' : K} : (m.touch k).has k' ↔ k' = k ∨ m.has k' := has_set

theorem get_of_find {m : FMap K V} {k : K} {v : V} (h : m.find k = some v) : m.get k = v := by
  simp [get, h]

@[simp] theorem get_touch (m : FMap K V) (k k' : K) : (m.touch k).get k' = m.get k' := by
  by_cases h : k' = k
  · subst h; simp [get, touch]
  · simp [get, touch, find_set_ne _ _ h]

theorem get_set (m : FMap K V) (k k' : K) (v : V) :
    (m.set k v).get k' = if k' = k then v else m.get k' := by
  by_cases h : k' = k <;> simp [get, find_set, h]

@[simp] theorem get_set_self (m : FMap K V) (k : K) (v : V) : (m.set k v).get k = v := by
  simp [get_set]

end FMap

end MSV
