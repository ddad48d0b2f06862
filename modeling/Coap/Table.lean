/-
# Tables

A table holds at most one value under each key.  It keeps its entries in the order in which
their keys were first inserted; whoever looks into it by `get?` does not see that order.
-/

namespace Coap

/-- Values under distinct keys. -/
structure Table (κ ν : Type) where
  entries : List (κ × ν)
  nodup : (entries.map (·.1)).Nodup

namespace Table

variable {κ ν : Type}

/-- The table without entries. -/
def empty : Table κ ν := ⟨[], .nil⟩

instance : Inhabited (Table κ ν) := ⟨empty⟩

/-- The keys in the order in which they were inserted. -/
def keys (t : Table κ ν) : List κ := t.entries.map (·.1)

/-- The number of entries. -/
def size (t : Table κ ν) : Nat := t.entries.length

/-- Whether there are no entries. -/
def isEmpty (t : Table κ ν) : Bool := t.entries.isEmpty

/-! ## Entries that pass a test -/

/-- Keeps the entries that pass a test. -/
def filter (t : Table κ ν) (p : κ → ν → Bool) : Table κ ν :=
  ⟨t.entries.filter fun x => p x.1 x.2, t.nodup.sublist (List.filter_sublist.map _)⟩

/-- Replaces every value; the keys stay. -/
def mapValues (t : Table κ ν) (f : κ → ν → ν) : Table κ ν :=
  ⟨t.entries.map fun x => (x.1, f x.1 x.2), by
    have h : (t.entries.map fun x => (x.1, f x.1 x.2)).map (·.1) = t.entries.map (·.1) := by
      simp
    rw [h]
    exact t.nodup⟩

/-- Replaces or drops every value. -/
def filterMapValues (t : Table κ ν) (f : κ → ν → Option ν) : Table κ ν :=
  ⟨t.entries.filterMap fun x => (f x.1 x.2).map (x.1, ·), by
    have h : ∀ l : List (κ × ν),
        ((l.filterMap fun x => (f x.1 x.2).map (x.1, ·)).map (·.1)).Sublist (l.map (·.1)) := by
      intro l
      induction l with
      | nil => simp
      | cons x rest ih =>
        cases hx : f x.1 x.2 with
        | none => simpa [hx] using ih.cons x.1
        | some v => simpa [hx] using ih.cons_cons x.1
    exact t.nodup.sublist (h t.entries)⟩

variable [DecidableEq κ]

/-! ## One key -/

/-- The value under the first occurrence of a key. -/
def lookup (k : κ) : List (κ × ν) → Option ν
  | [] => none
  | (k', v) :: rest => if k' = k then some v else lookup k rest

/-- Puts a value in the place of the one under its key, or at the end. -/
def put (k : κ) (v : ν) : List (κ × ν) → List (κ × ν)
  | [] => [(k, v)]
  | (k', v') :: rest => if k' = k then (k, v) :: rest else (k', v') :: put k v rest

theorem mem_map_put {k a : κ} {v : ν} {l : List (κ × ν)} :
    a ∈ (put k v l).map (·.1) ↔ a = k ∨ a ∈ l.map (·.1) := by
  induction l with
  | nil => simp [put]
  | cons x rest ih =>
    obtain ⟨k', v'⟩ := x
    by_cases h : k' = k
    · subst h
      simp [put]
    · simp only [put, h, if_false, List.map_cons, List.mem_cons, ih]
      constructor <;> rintro (rfl | rfl | h) <;> simp_all

theorem nodup_put (k : κ) (v : ν) {l : List (κ × ν)} (h : (l.map (·.1)).Nodup) :
    ((put k v l).map (·.1)).Nodup := by
  induction l with
  | nil => simp [put]
  | cons x rest ih =>
    obtain ⟨k', v'⟩ := x
    simp only [List.map_cons, List.nodup_cons] at h
    by_cases hk : k' = k
    · subst hk
      simpa [put] using h
    · simp only [put, hk, if_false, List.map_cons, List.nodup_cons]
      refine ⟨?_, ih h.2⟩
      rw [mem_map_put]
      rintro (rfl | hm)
      · exact hk rfl
      · exact h.1 hm

/-- The value under a key. -/
def get? (t : Table κ ν) (k : κ) : Option ν := lookup k t.entries

/-- Whether there is a value under a key. -/
def contains (t : Table κ ν) (k : κ) : Bool := (t.get? k).isSome

/-- Puts a value under a key in place of the one before. -/
def insert (t : Table κ ν) (k : κ) (v : ν) : Table κ ν :=
  ⟨put k v t.entries, nodup_put k v t.nodup⟩

/-- Drops the value under a key. -/
def erase (t : Table κ ν) (k : κ) : Table κ ν := t.filter fun k' _ => k' != k

/-- Changes the value under a key, if there is one. -/
def modify (t : Table κ ν) (k : κ) (f : ν → ν) : Table κ ν :=
  match t.get? k with
  | some v => t.insert k (f v)
  | none => t

/-- Changes the value under a key, starting from `d` if there is none. -/
def alter (t : Table κ ν) (k : κ) (d : ν) (f : ν → ν) : Table κ ν :=
  t.insert k (f ((t.get? k).getD d))

/-! ## What a look-up sees -/

theorem lookup_put (k k' : κ) (v : ν) (l : List (κ × ν)) :
    lookup k' (put k v l) = if k = k' then some v else lookup k' l := by
  induction l with
  | nil => rfl
  | cons x rest ih =>
    obtain ⟨k₀, v₀⟩ := x
    by_cases h : k₀ = k
    · subst h
      by_cases h' : k₀ = k' <;> simp [put, lookup, h']
    · by_cases h' : k = k'
      · subst h'
        simp [put, lookup, h, ih]
      · simp [put, lookup, h, h', ih]

@[simp] theorem get?_empty (k : κ) : (empty : Table κ ν).get? k = none := rfl

theorem get?_insert (t : Table κ ν) (k k' : κ) (v : ν) :
    (t.insert k v).get? k' = if k = k' then some v else t.get? k' :=
  lookup_put k k' v t.entries

@[simp] theorem get?_insert_self (t : Table κ ν) (k : κ) (v : ν) :
    (t.insert k v).get? k = some v := by
  simp [get?_insert]

theorem lookup_eq_none {k : κ} {l : List (κ × ν)} (h : k ∉ l.map (·.1)) : lookup k l = none := by
  induction l with
  | nil => rfl
  | cons x rest ih =>
    obtain ⟨k', v⟩ := x
    simp only [List.map_cons, List.mem_cons, not_or] at h
    simp [lookup, Ne.symm h.1, ih h.2]

theorem lookup_filter (p : κ → ν → Bool) (k : κ) {l : List (κ × ν)}
    (h : (l.map (·.1)).Nodup) :
    lookup k (l.filter fun x => p x.1 x.2) = (lookup k l).filter (p k) := by
  induction l with
  | nil => rfl
  | cons x rest ih =>
    obtain ⟨k', v⟩ := x
    simp only [List.map_cons, List.nodup_cons] at h
    by_cases hk : k' = k
    · subst hk
      by_cases hp : p k' v
      · simp [hp, lookup, Option.filter]
      · simp [hp, lookup, Option.filter, ih h.2, lookup_eq_none h.1]
    · by_cases hp : p k' v <;> simp [hp, lookup, hk, ih h.2]

theorem get?_filter (t : Table κ ν) (p : κ → ν → Bool) (k : κ) :
    (t.filter p).get? k = (t.get? k).filter (p k) :=
  lookup_filter p k t.nodup

theorem get?_erase (t : Table κ ν) (k k' : κ) :
    (t.erase k).get? k' = if k = k' then none else t.get? k' := by
  simp only [erase, get?_filter]
  by_cases h : k = k'
  · subst h
    cases t.get? k <;> simp [Option.filter]
  · have h' : k' ≠ k := fun e => h e.symm
    cases t.get? k' <;> simp [Option.filter, h, h']

theorem lookup_filterMap (f : κ → ν → Option ν) (k : κ) {l : List (κ × ν)}
    (h : (l.map (·.1)).Nodup) :
    lookup k (l.filterMap fun x => (f x.1 x.2).map (x.1, ·)) = (lookup k l).bind (f k) := by
  induction l with
  | nil => rfl
  | cons x rest ih =>
    obtain ⟨k', v⟩ := x
    simp only [List.map_cons, List.nodup_cons] at h
    by_cases hk : k' = k
    · subst hk
      cases hf : f k' v with
      | none => simp [hf, lookup, ih h.2, lookup_eq_none h.1]
      | some w => simp [hf, lookup]
    · cases hf : f k' v <;> simp [hf, lookup, hk, ih h.2]

theorem get?_filterMapValues (t : Table κ ν) (f : κ → ν → Option ν) (k : κ) :
    (t.filterMapValues f).get? k = (t.get? k).bind (f k) :=
  lookup_filterMap f k t.nodup

theorem get?_mapValues (t : Table κ ν) (f : κ → ν → ν) (k : κ) :
    (t.mapValues f).get? k = (t.get? k).map (f k) := by
  have h (l : List (κ × ν)) :
      lookup k (l.map fun x => (x.1, f x.1 x.2)) = (lookup k l).map (f k) := by
    induction l with
    | nil => rfl
    | cons x rest ih =>
      by_cases hk : x.1 = k
      · simp [lookup, hk]
      · simp [lookup, hk, ih]
  exact h t.entries

/-! ## Entries and sizes -/

/-- The entries under a key are the value under it, if there is one. -/
theorem filter_entries (t : Table κ ν) (k : κ) :
    t.entries.filter (fun x => x.1 = k) = ((t.get? k).map (k, ·)).toList := by
  have h : ∀ l : List (κ × ν), (l.map (·.1)).Nodup →
      l.filter (fun x => x.1 = k) = ((lookup k l).map (k, ·)).toList := by
    intro l hl
    induction l with
    | nil => rfl
    | cons x rest ih =>
      obtain ⟨k', v⟩ := x
      simp only [List.map_cons, List.nodup_cons] at hl
      by_cases hk : k' = k
      · subst hk
        simp [lookup, ih hl.2, lookup_eq_none hl.1]
      · simp [lookup, hk, ih hl.2]
  exact h t.entries t.nodup

theorem mem_entries_iff {t : Table κ ν} {k : κ} {v : ν} :
    (k, v) ∈ t.entries ↔ t.get? k = some v := by
  have h : (k, v) ∈ t.entries ↔ (k, v) ∈ t.entries.filter (fun x => x.1 = k) := by simp
  rw [h, filter_entries]
  simp

theorem size_insert (t : Table κ ν) {k : κ} (h : t.get? k = none) (v : ν) :
    (t.insert k v).size = t.size + 1 := by
  have hput : ∀ l : List (κ × ν), lookup k l = none → (put k v l).length = l.length + 1 := by
    intro l hl
    induction l with
    | nil => rfl
    | cons x rest ih =>
      obtain ⟨k', v'⟩ := x
      by_cases hk : k' = k
      · simp [lookup, hk] at hl
      · simp only [lookup, hk, if_false] at hl
        simp [put, hk, ih hl]
  exact hput t.entries h

omit [DecidableEq κ] in
/-- What a test leaves and what it takes away are all entries. -/
theorem size_filter_add (t : Table κ ν) (p : κ → ν → Bool) :
    (t.filter p).size + (t.entries.filter fun x => !p x.1 x.2).length = t.size := by
  have h := List.length_eq_countP_add_countP (fun x : κ × ν => p x.1 x.2) (l := t.entries)
  simp only [List.countP_eq_length_filter, Bool.not_eq_true, Bool.decide_eq_false] at h
  exact h.symm

theorem size_erase (t : Table κ ν) {k : κ} {v : ν} (h : t.get? k = some v) :
    (t.erase k).size + 1 = t.size := by
  have hgone : t.entries.filter (fun x => !(x.1 != k)) = [(k, v)] := by
    have hentry := t.filter_entries k
    rw [h] at hentry
    have hsame : (fun x : κ × ν => !(x.1 != k)) = fun x => decide (x.1 = k) := by
      funext x
      by_cases hx : x.1 = k <;> simp [hx]
    rw [hsame, hentry]
    rfl
  have hsize := t.size_filter_add fun k' _ => k' != k
  rw [hgone] at hsize
  exact hsize

end Table

end Coap
