/-
# The index of the subscriptions

A subscription stands in two tables: under its peer and token with everything known of it,
and beside that in the list of its path.  The two agree when the lists hold exactly the keys
of the subscriptions to their paths.  This file says what each operation does to either table,
and that together they agree afterwards if they did before.
-/
import Coap.Observe.Subscriptions

namespace Coap.Subscriptions

/-! ## Both tables, seen from a key and from a path -/

/-- The path that is observed under a key. -/
def path? (s : Subscriptions) (key : ConversationKey) : Option String :=
  (s.entries.get? key).map (·.path)

/-- The keys that are listed at a path. -/
def keysAt (s : Subscriptions) (path : String) : List ConversationKey :=
  (s.byPath.get? path).getD []

/-- No path is kept with an empty list. -/
def NoneEmpty (s : Subscriptions) : Prop := ∀ path, s.byPath.get? path ≠ some []

variable {s t : Subscriptions} {path q : String} {key k : ConversationKey}

/-- The path of a key is that of its entry. -/
theorem path?_eq_some_iff :
    s.path? key = some path ↔ ∃ x, s.entries.get? key = some x ∧ x.path = path := by
  simp [path?]

/-- The keys at a path are those of the index. -/
theorem keysAt_congr (h : t.byPath = s.byPath) : t.keysAt path = s.keysAt path := by
  simp [keysAt, h]

/-- A key is at a path if the index lists it there. -/
theorem mem_keysAt_iff :
    key ∈ s.keysAt path ↔ ∃ keys, s.byPath.get? path = some keys ∧ key ∈ keys := by
  unfold keysAt
  cases s.byPath.get? path <;> simp

/-! ## Listing a key and taking it off the list -/

section

variable (s) (path q) (key k)

/-- To take a key off the list leaves the entries alone. -/
@[simp] theorem entries_unindex : (s.unindex path key).entries = s.entries := by
  unfold unindex
  split
  · rfl
  · split <;> rfl

/-- To take a key off the list leaves what is attached to paths. -/
@[simp] theorem attached_unindex : (s.unindex path key).attached = s.attached := by
  unfold unindex
  split
  · rfl
  · split <;> rfl

/-- To take a key off the list leaves the paths of keys. -/
@[simp] theorem path?_unindex : (s.unindex path key).path? k = s.path? k := by
  simp [path?]

/-- It is off the list of its path, and the other lists are the same. -/
theorem keysAt_unindex :
    (s.unindex path key).keysAt q =
      if path = q then (s.keysAt q).filter (· != key) else s.keysAt q := by
  unfold unindex keysAt
  cases hkeys : s.byPath.get? path with
  | none =>
    by_cases hq : path = q
    · subst hq
      simp [hkeys]
    · simp [hq]
  | some keys =>
    cases hrest : keys.filter (· != key) with
    | nil =>
      by_cases hq : path = q
      · subst hq
        simp [hkeys, hrest, Table.get?_erase]
      · simp [hrest, hq, Table.get?_erase]
    | cons first rest =>
      by_cases hq : path = q
      · subst hq
        simp [hkeys, hrest]
      · simp [hrest, hq, Table.get?_insert]

/-- A key that is listed is added to those of its path. -/
theorem mem_keysAt_index :
    k ∈ (s.index path key).keysAt q ↔ k ∈ s.keysAt q ∨ path = q ∧ k = key := by
  by_cases hq : path = q
  · subst hq
    by_cases hkey : key ∈ (s.byPath.get? path).getD []
    · simp only [index, keysAt, Table.get?_insert_self, Option.getD_some,
        List.contains_iff_mem, hkey, if_true, true_and]
      exact ⟨.inl, fun h => h.elim id fun hk => hk ▸ hkey⟩
    · simp [index, keysAt, hkey]
  · simp [index, keysAt, Table.get?_insert, hq]

/-- To list a key leaves what is attached alone. -/
@[simp] theorem attached_index : (s.index path key).attached = s.attached := rfl

/-- To list a key leaves the paths of keys. -/
@[simp] theorem path?_index : (s.index path key).path? k = s.path? k := rfl

end

/-- What else is in the state has no influence on the index. -/
theorem byPath_unindex_congr (h : t.byPath = s.byPath) :
    (t.unindex path key).byPath = (s.unindex path key).byPath := by
  unfold unindex
  rw [h]
  split
  · exact h
  · split <;> rfl

/-- A list that would be left empty is removed. -/
theorem NoneEmpty.unindex (h : s.NoneEmpty) (path : String) (key : ConversationKey) :
    (s.unindex path key).NoneEmpty := by
  intro q
  unfold Subscriptions.unindex
  split
  · exact h q
  · split
    · simp only [Table.get?_erase]
      split
      · simp
      · exact h q
    · next rest hrest =>
      simp only [Table.get?_insert]
      split
      · simpa using hrest
      · exact h q

/-- A list with a key is not empty. -/
theorem NoneEmpty.index (h : s.NoneEmpty) (path : String) (key : ConversationKey) :
    (s.index path key).NoneEmpty := by
  intro q
  simp only [Subscriptions.index, Table.get?_insert]
  split
  · split
    · next hkey =>
      intro hnil
      simp [Option.some.inj hnil] at hkey
    · simp
  · exact h q

/-- No key is listed twice after one was taken off. -/
theorem nodup_keysAt_unindex (h : (s.keysAt q).Nodup) : ((s.unindex path key).keysAt q).Nodup := by
  rw [keysAt_unindex]
  split
  · exact h.filter _
  · exact h

/-- No key is listed twice after one was listed, since it is not listed again. -/
theorem nodup_keysAt_index (h : (s.keysAt q).Nodup) : ((s.index path key).keysAt q).Nodup := by
  by_cases hq : path = q
  · subst hq
    have heq : (s.index path key).keysAt path =
        if (s.keysAt path).contains key then s.keysAt path else s.keysAt path ++ [key] := by
      simp [Subscriptions.index, keysAt]
    rw [heq]
    split
    · exact h
    · next hkey =>
      have hnot : key ∉ s.keysAt path := by simpa using hkey
      exact List.nodup_append.2 ⟨h, by simp, by rintro a ha b hb rfl; simp_all⟩
  · simpa [Subscriptions.index, keysAt, Table.get?_insert, hq] using h

/-! ## Subscribing -/

/-- A subscription is entered and taken off the list of another path that the key was under,
and then listed at its path. -/
theorem register_eq (s : Subscriptions) (key : ConversationKey) (path : String)
    (request : Message) :
    ∃ left : Subscriptions, (s.register key path request).2 = left.index path key ∧
      (∀ k, left.path? k = if key = k then some path else s.path? k) ∧
      left.attached = s.attached ∧
      (left.byPath = s.byPath ∧ (∀ q, s.path? key = some q → path = q) ∨
        ∃ old, s.path? key = some old ∧ left.byPath = (s.unindex old key).byPath) := by
  let entry : Subscription :=
    { path, etags := request.etags, accept? := request.accept?, number := s.firstNumbers.next.1,
      lastId? := none }
  let entered : Subscriptions :=
    { s with firstNumbers := s.firstNumbers.next.2, entries := s.entries.insert key entry }
  have hentered (k : ConversationKey) :
      entered.path? k = if key = k then some path else s.path? k := by
    by_cases hk : key = k <;> simp [entered, entry, path?, Table.get?_insert, hk]
  cases hprevious : s.entries.get? key with
  | none =>
    refine ⟨entered, ?_, hentered, rfl, .inl ⟨rfl, ?_⟩⟩
    · simp [register, hprevious, entered, entry]
    · simp [path?, hprevious]
  | some previous =>
    by_cases hp : previous.path = path
    · refine ⟨entered, ?_, hentered, rfl, .inl ⟨rfl, ?_⟩⟩
      · simp [register, hprevious, hp, entered, entry]
      · simp [path?, hprevious, hp]
    · refine ⟨entered.unindex previous.path key, ?_, ?_, ?_, .inr ⟨previous.path, ?_, ?_⟩⟩
      · simp [register, hprevious, hp, entered, entry]
      · simpa using hentered
      · simp [entered]
      · simp [path?, hprevious]
      · exact byPath_unindex_congr rfl

/-! ## Agreement of the tables -/

/-- The two tables agree: a path lists the keys it is observed under, each of them once, and
has no list if there are none; and only attached paths are observed. -/
structure Consistent (s : Subscriptions) : Prop where
  listed : ∀ path key, key ∈ s.keysAt path ↔ s.path? key = some path
  noneEmpty : s.NoneEmpty
  nodup : ∀ path, (s.keysAt path).Nodup
  attached : ∀ key path, s.path? key = some path → s.attached.contains path = true

namespace Consistent

/-- What leaves the index, the observed paths and the attached ones alone keeps the tables in
agreement. -/
theorem congr (h : s.Consistent) (hindex : t.byPath = s.byPath)
    (hpath : ∀ key, t.path? key = s.path? key)
    (hattached : ∀ path, s.attached.contains path = true → t.attached.contains path = true) :
    t.Consistent := by
  have hkeys (path : String) : t.keysAt path = s.keysAt path := keysAt_congr hindex
  refine ⟨fun path key => ?_, fun path => ?_, fun path => ?_, fun key path hk => ?_⟩
  · rw [hkeys, hpath]
    exact h.listed path key
  · rw [hindex]
    exact h.noneEmpty path
  · rw [hkeys]
    exact h.nodup path
  · rw [hpath] at hk
    exact hattached path (h.attached key path hk)

/-- Once a key is taken off the list of its path, the lists hold all other keys. -/
theorem mem_keysAt_unindex (h : s.Consistent) (hpath : s.path? key = some path) :
    k ∈ (s.unindex path key).keysAt q ↔ k ≠ key ∧ s.path? k = some q := by
  rw [keysAt_unindex]
  split
  · simp [h.listed, and_comm]
  · next hq =>
    refine (h.listed q k).trans ⟨fun hk => ⟨?_, hk⟩, fun hk => hk.2⟩
    rintro rfl
    exact hq (Option.some.inj (hpath.symm.trans hk))

/-- A subscription ends: its key leaves the table of subscriptions and the list of its path. -/
theorem remove (h : s.Consistent) (key : ConversationKey) : (s.remove key).Consistent := by
  cases hentry : s.entries.get? key with
  | none => simpa [Subscriptions.remove, hentry] using h
  | some entry =>
    have hkey : s.path? key = some entry.path := by simp [path?, hentry]
    have hindex : (s.remove key).byPath = (s.unindex entry.path key).byPath := by
      simp only [Subscriptions.remove, hentry]
      exact byPath_unindex_congr rfl
    have hpath (k : ConversationKey) :
        (s.remove key).path? k = if key = k then none else s.path? k := by
      simp only [Subscriptions.remove, hentry, path?_unindex]
      by_cases hk : key = k <;> simp [path?, Table.get?_erase, hk]
    have hkeys (q : String) : (s.remove key).keysAt q = (s.unindex entry.path key).keysAt q :=
      keysAt_congr hindex
    refine ⟨fun q k => ?_, fun q => ?_, fun q => ?_, fun k q hk => ?_⟩
    · rw [hkeys, h.mem_keysAt_unindex hkey, hpath]
      by_cases hk : key = k
      · simp [hk]
      · simp [hk, Ne.symm hk]
    · rw [hindex]
      exact h.noneEmpty.unindex entry.path key q
    · rw [hkeys]
      exact nodup_keysAt_unindex (h.nodup q)
    · rw [hpath] at hk
      split at hk
      · simp at hk
      · simpa [Subscriptions.remove, hentry] using h.attached k q hk

/-- A subscription is made, or moves to another path: the key is listed at its new path and
nowhere else. -/
theorem register (h : s.Consistent) (key : ConversationKey) (request : Message)
    (hattached : s.attached.contains path = true) :
    (s.register key path request).2.Consistent := by
  obtain ⟨left, hleft, hpath, hatt, hindex⟩ := s.register_eq key path request
  -- before the key is listed at its new path it may be listed there already, and nowhere else
  have hother (q : String) (k : ConversationKey) (hqk : path ≠ q ∨ k ≠ key) :
      k ∈ left.keysAt q ↔ k ≠ key ∧ s.path? k = some q := by
    rcases hindex with ⟨hsame, hstay⟩ | ⟨old, hold, hsame⟩
    · rw [keysAt_congr hsame, h.listed]
      refine ⟨fun hk => ⟨?_, hk⟩, fun hk => hk.2⟩
      rintro rfl
      rcases hqk with hne | hne
      · exact hne (hstay q hk)
      · exact hne rfl
    · rw [keysAt_congr hsame, h.mem_keysAt_unindex hold]
  have hnone : left.NoneEmpty := fun q => by
    rcases hindex with ⟨hsame, -⟩ | ⟨old, -, hsame⟩
    · rw [hsame]
      exact h.noneEmpty q
    · rw [hsame]
      exact h.noneEmpty.unindex old key q
  have hnodup (q : String) : (left.keysAt q).Nodup := by
    rcases hindex with ⟨hsame, -⟩ | ⟨old, -, hsame⟩
    · rw [keysAt_congr hsame]
      exact h.nodup q
    · rw [keysAt_congr hsame]
      exact nodup_keysAt_unindex (h.nodup q)
  rw [hleft]
  refine ⟨fun q k => ?_, hnone.index _ _, fun q => nodup_keysAt_index (hnodup q),
    fun k q hk => ?_⟩
  · rw [mem_keysAt_index, path?_index, hpath]
    by_cases hk : key = k
    · by_cases hq : path = q
      · simp [hk, hq]
      · rw [hother q k (.inl hq)]
        simp [hk, hq]
    · rw [hother q k (.inr (Ne.symm hk))]
      simp [hk, Ne.symm hk]
  · rw [path?_index, hpath] at hk
    rw [attached_index, hatt]
    split at hk
    · exact Option.some.inj hk ▸ hattached
    · exact h.attached k q hk

end Consistent

end Coap.Subscriptions
