/-
# `Reliar.Core.Headers` — validated custom headers (`reliar-core`: `headers.rs`)

`Headers` wraps a `HashMap<String, String>`.  The model keeps one enumeration of
the map: a list of entries with pairwise distinct keys.  The order of the list
is the map's iteration order, which the program neither chooses nor knows, so
two `Headers` are the same map when their lists are permutations of each other
(`Headers.Same`), and results about a decoder are stated up to that.

Everything `insert` checks is an invariant of the structure: a `Headers` that
`insert` and `remove` could not have built does not exist.
-/
import Reliar.Core.Ids

namespace Reliar.Core

/-! ## ASCII case folding -/

/-- `str::eq_ignore_ascii_case`. -/
def eqIgnoreAsciiCase (a b : String) : Bool :=
  a.toList.map Char.toLower == b.toList.map Char.toLower

/-- `starts_with_ci`, also the body of `Headers::has_reserved_prefix`.  The source compares the
first `prefix.len()` bytes; every prefix it is called with is ASCII, so those bytes are as many
characters. -/
def startsWithCi (s pre : String) : Bool :=
  (s.toList.take pre.length).map Char.toLower == pre.toList.map Char.toLower

theorem eqIgnoreAsciiCase_refl (a : String) : eqIgnoreAsciiCase a a = true := by
  simp [eqIgnoreAsciiCase]

/-! ## The map -/

inductive HeaderError
  | reserved (key : String)
  | emptyKey
  | controlCharacterInKey (key : String)
  | controlCharacterInValue (key : String)
  | keyTooLong (len : Nat)
  | valueTooLong (len : Nat)
  | tooManyHeaders (limit : Nat)
  deriving DecidableEq, Repr

namespace Headers

def RESERVED_PREFIX : String := "reliar-"
def MAX_KEY_LEN : Nat := 128
def MAX_VALUE_LEN : Nat := 1024
def MAX_COUNT : Nat := 32

def hasReservedPrefix (key : String) : Bool := startsWithCi key RESERVED_PREFIX

/-- The checks of `insert` on one key and value, in the source's order. -/
def check (key value : String) : Except HeaderError Unit :=
  if hasReservedPrefix key then .error (.reserved key)
  else if key = "" then .error .emptyKey
  else if containsControlChar key then .error (.controlCharacterInKey key)
  else if MAX_KEY_LEN < key.utf8ByteSize then .error (.keyTooLong key.utf8ByteSize)
  else if containsControlChar value then .error (.controlCharacterInValue key)
  else if MAX_VALUE_LEN < value.utf8ByteSize then .error (.valueTooLong value.utf8ByteSize)
  else .ok ()

end Headers

/-- Custom headers, as one enumeration of the map. -/
structure Headers where
  entries : List (String × String)
  nodup : (entries.map Prod.fst).Nodup
  valid : ∀ e ∈ entries, Headers.check e.1 e.2 = .ok ()
  count : entries.length ≤ Headers.MAX_COUNT
  deriving DecidableEq

namespace Headers

/-- The same map, whatever its enumeration order. -/
def Same (h h' : Headers) : Prop := h.entries.Perm h'.entries

def empty : Headers := ⟨[], by simp, by simp, by decide⟩

def keys (h : Headers) : List String := h.entries.map Prod.fst

def isEmpty (h : Headers) : Bool := h.entries.isEmpty

/-- Replaces the value of a key that is present, keeping its place. -/
def replace (key value : String) (es : List (String × String)) : List (String × String) :=
  es.map fun e => if e.1 = key then (key, value) else e

theorem replace_keys (key value : String) (es : List (String × String)) :
    (replace key value es).map Prod.fst = es.map Prod.fst := by
  simp only [replace, List.map_map]
  refine List.map_congr_left fun e _ => ?_
  by_cases h : e.1 = key <;> simp [h]

theorem replace_valid {key value : String} {es : List (String × String)}
    (hc : check key value = .ok ()) (hv : ∀ e ∈ es, check e.1 e.2 = .ok ()) :
    ∀ e ∈ replace key value es, check e.1 e.2 = .ok () := by
  intro e he
  obtain ⟨e₀, h₀, rfl⟩ := List.mem_map.mp he
  by_cases h : e₀.1 = key
  · simpa [h] using hc
  · simpa [h] using hv e₀ h₀

/-- A fresh entry at the end of the enumeration. -/
def push (h : Headers) (key value : String) (hk : key ∉ h.keys)
    (hc : check key value = .ok ()) (hn : h.entries.length < MAX_COUNT) : Headers where
  entries := h.entries ++ [(key, value)]
  nodup := by
    rw [List.map_append, List.map_singleton, List.nodup_append]
    refine ⟨h.nodup, List.nodup_singleton key, ?_⟩
    rintro a ha b hb rfl
    have hak : a = key := List.mem_singleton.mp hb
    exact hk (hak ▸ ha)
  valid := by
    intro e he
    rcases List.mem_append.mp he with he | he
    · exact h.valid e he
    · rw [List.mem_singleton.mp he]; exact hc
  count := by rw [List.length_append, List.length_singleton]; omega

@[simp] theorem push_entries {h : Headers} {key value : String} (hk : key ∉ h.keys)
    (hc : check key value = .ok ()) (hn : h.entries.length < MAX_COUNT) :
    (h.push key value hk hc hn).entries = h.entries ++ [(key, value)] := rfl

/-- `Headers::insert`: the new map and the previous value of the key. -/
def insert (h : Headers) (key value : String) : Except HeaderError (Headers × Option String) :=
  match hc : check key value with
  | .error e => .error e
  | .ok () =>
      if hk : key ∈ h.keys then
        .ok (⟨replace key value h.entries, by rw [replace_keys]; exact h.nodup,
            replace_valid hc h.valid, by rw [replace, List.length_map]; exact h.count⟩,
          h.entries.lookup key)
      else if hn : MAX_COUNT ≤ h.entries.length then .error (.tooManyHeaders MAX_COUNT)
      else .ok (h.push key value hk hc (by omega), none)

/-- Inserting a fresh, valid key below the cap appends it. -/
theorem insert_new {h : Headers} {key value : String} (hk : key ∉ h.keys)
    (hc : check key value = .ok ()) (hn : h.entries.length < MAX_COUNT) :
    h.insert key value = .ok (h.push key value hk hc hn, none) := by
  have hn' : ¬ MAX_COUNT ≤ h.entries.length := by omega
  unfold insert
  split
  · rename_i e he
    rw [hc] at he; cases he
  · rw [dif_neg hk, dif_neg hn']

/-- The entries of a map after an `insert`. -/
theorem mem_insert {h h' : Headers} {key value : String} {old : Option String}
    (hins : h.insert key value = .ok (h', old)) :
    ∀ x ∈ h'.entries, x ∈ h.entries ∨ x = (key, value) := by
  unfold insert at hins
  split at hins
  · cases hins
  · split at hins
    · cases hins
      intro x hx
      obtain ⟨y, hy, rfl⟩ := List.mem_map.mp hx
      by_cases hk : y.1 = key
      · exact .inr (by simp [hk])
      · exact .inl (by simpa [hk] using hy)
    · split at hins
      · cases hins
      · cases hins
        intro x hx
        rcases List.mem_append.mp hx with hx | hx
        · exact .inl hx
        · exact .inr (List.mem_singleton.mp hx)

/-- The map after an `insert` is not empty. -/
theorem insert_ne_nil {h h' : Headers} {key value : String} {old : Option String}
    (hins : h.insert key value = .ok (h', old)) : h'.entries ≠ [] := by
  unfold insert at hins
  split at hins
  · cases hins
  · split at hins
    · rename_i hmem
      cases hins
      intro hnil
      have hentries : h.entries = [] := List.map_eq_nil_iff.mp hnil
      simp [keys, hentries] at hmem
    · split at hins
      · cases hins
      · cases hins
        simp

/-- `Headers::remove`. -/
def remove (h : Headers) (key : String) : Headers × Option String :=
  (⟨h.entries.filter fun e => e.1 ≠ key,
      h.nodup.sublist (List.filter_sublist.map Prod.fst),
      fun e he => h.valid e (List.mem_of_mem_filter he),
      Nat.le_trans (List.length_filter_le _ _) h.count⟩,
    h.entries.lookup key)

theorem Same.refl (h : Headers) : h.Same h := List.Perm.refl _

end Headers

/-- Equality of optional maps. -/
def SameHeaders : Option Headers → Option Headers → Prop
  | none, none => True
  | some h, some h' => h.Same h'
  | _, _ => False

end Reliar.Core
