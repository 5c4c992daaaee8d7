import ClosureLang.Value.Basic

/-!
# Entries of hashes

The entries of a hash are a list without repeated keys, kept in the order of the keys, so that
hashes with the same entries are the same list. Integers come first, then booleans, then strings.

While a hash literal is evaluated, the object that was written as the key is stored beside the value
(`Stored`). A hash keeps the values only (`entriesOf`), as the key tells which object it was.

Main statement: `lookup_insertEntry` says what is found under a key after something was put under
another or the same one.
-/

namespace ClosureLang

/-- The order of keys: integers by value, then `false`, `true`, then strings by code points. -/
def Key.before : Key → Key → Bool
  | .int m, .int n => m < n
  | .int _, _ => true
  | .bool _, .int _ => false
  | .bool a, .bool b => !a && b
  | .bool _, .text _ => true
  | .text s, .text t => s < t
  | .text _, _ => false

variable {α τ : Type}

/-- Puts something under a key, in place of what was there. -/
def insertEntry (k : Key) (a : α) : List (Key × α) → List (Key × α)
  | [] => [(k, a)]
  | (l, b) :: rest =>
    if k = l then (k, a) :: rest
    else if k.before l then (k, a) :: (l, b) :: rest
    else (l, b) :: insertEntry k a rest

/-- What a hash literal stores under a key: the object that was written as the key, and the value. -/
structure Stored (τ : Type) where
  object : Value τ
  value : Value τ

/-- The entries of the hash for which a literal has stored objects and values. -/
def entriesOf (stored : List (Key × Stored τ)) : List (Key × Value τ) :=
  stored.map fun e => (e.1, e.2.value)

/-- Looking into a list of pairs, one pair at a time. -/
theorem lookup_cons_ite {α β : Type} [DecidableEq α] (a b : α) (v : β) (rest : List (α × β)) :
    ((b, v) :: rest).lookup a = if a = b then some v else rest.lookup a := by
  rw [List.lookup_cons]
  by_cases h : a = b
  · simp [h]
  · simp [h, beq_eq_false_iff_ne.mpr h]

/-- What was put under a key last is found there; under other keys nothing changes. -/
theorem lookup_insertEntry (k l : Key) (a : α) (entries : List (Key × α)) :
    (insertEntry k a entries).lookup l = if l = k then some a else entries.lookup l := by
  induction entries with
  | nil => rw [insertEntry, lookup_cons_ite]
  | cons e rest ih =>
    obtain ⟨m, w⟩ := e
    rw [insertEntry]
    split
    · next hkm =>
      subst hkm
      simp only [lookup_cons_ite]
      split <;> rfl
    · next hkm =>
      split
      · rw [lookup_cons_ite]
      · simp only [lookup_cons_ite, ih]
        by_cases hlm : l = m
        · subst hlm
          simp [Ne.symm hkm]
        · simp [hlm]

/-- What is there after something was put in was put in or was there before. -/
theorem mem_insertEntry {k : Key} {a : α} {entries : List (Key × α)} {e : Key × α}
    (h : e ∈ insertEntry k a entries) : e = (k, a) ∨ e ∈ entries := by
  induction entries with
  | nil => exact Or.inl (List.mem_singleton.mp h)
  | cons d entries ih =>
    obtain ⟨l, b⟩ := d
    rw [insertEntry] at h
    split at h
    · rcases List.mem_cons.mp h with rfl | h
      · exact Or.inl rfl
      · exact Or.inr (List.mem_cons_of_mem _ h)
    · split at h
      · exact List.mem_cons.mp h
      · rcases List.mem_cons.mp h with rfl | h
        · exact Or.inr List.mem_cons_self
        · exact (ih h).imp_right (List.mem_cons_of_mem _)

/-- Under a key stands the value that is stored there. -/
theorem lookup_entriesOf (stored : List (Key × Stored τ)) (k : Key) :
    (entriesOf stored).lookup k = (stored.lookup k).map Stored.value := by
  induction stored with
  | nil => rfl
  | cons e rest ih =>
    obtain ⟨l, o⟩ := e
    unfold entriesOf at ih ⊢
    rw [List.map_cons, lookup_cons_ite, lookup_cons_ite, ih]
    split <;> rfl

@[simp] theorem entriesOf_nil : entriesOf ([] : List (Key × Stored τ)) = [] := rfl

/-- The entries do not depend on the objects that were stored with the values. -/
@[simp] theorem entriesOf_insertEntry (k : Key) (a : Stored τ) (stored : List (Key × Stored τ)) :
    entriesOf (insertEntry k a stored) = insertEntry k a.value (entriesOf stored) := by
  induction stored with
  | nil => rfl
  | cons e rest ih =>
    obtain ⟨l, b⟩ := e
    unfold entriesOf at ih ⊢
    rw [insertEntry, List.map_cons, insertEntry]
    split
    · rfl
    · split
      · rfl
      · rw [List.map_cons, ih]

end ClosureLang
