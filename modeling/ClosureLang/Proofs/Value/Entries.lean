import ClosureLang.Proofs.Value.Hereditary
import Mathlib.Data.List.Dedup

/-!
# Entries in the order of their keys

`Key.before` is a strict linear order. Entries are in order if each key is before all that follow
it, so no key occurs twice. Putting a value under a key keeps entries in order
(`InOrder.insertEntry`), and entries that are put in one after the other end up in order whatever
the order in which they came (`foldl_insertEntry_of_perm`). Of several values that are put under one
key the last one is found there (`lookup_foldl_insertEntry_last`).

A value is in order if the entries of all hashes in it are (`Value.inOrder`). What evaluations give is
in order (`ClosureLang.Proofs.Eval.Ordered`).
-/

namespace ClosureLang

variable {α : Type}

/-! ## The order of keys -/

namespace Key

theorem before_irrefl (k : Key) : k.before k = false := by
  cases k with
  | int n => exact decide_eq_false Int64.lt_irrefl
  | bool b => cases b <;> rfl
  | text s => exact decide_eq_false (String.lt_irrefl s)

theorem before_trans {k l m : Key} (hkl : k.before l = true) (hlm : l.before m = true) :
    k.before m = true := by
  cases k <;> cases l <;> cases m <;>
    simp only [before, decide_eq_true_eq, Bool.and_eq_true, Bool.not_eq_true', Bool.false_eq_true]
      at hkl hlm ⊢
  · exact Int64.lt_trans hkl hlm
  · exact ⟨hkl.1, hlm.2⟩
  · exact String.lt_trans hkl hlm

/-- No two keys are before each other. -/
theorem before_asymm {k l : Key} (hkl : k.before l = true) (hlk : l.before k = true) : False := by
  have hself := before_trans hkl hlk
  rw [before_irrefl] at hself
  cases hself

/-- Of two different keys one is before the other. -/
theorem before_of_not_before {k l : Key} (hne : k ≠ l) (h : ¬ k.before l = true) :
    l.before k = true := by
  cases k <;> cases l <;> simp only [before, decide_eq_true_eq, not_true_eq_false] at h ⊢
  case int.int m n =>
    exact Int64.lt_of_le_of_ne (Int64.not_lt.mp h) fun heq => hne (congrArg Key.int heq.symm)
  case bool.bool a b =>
    cases a <;> cases b <;> first | rfl | exact absurd rfl hne | exact absurd rfl h
  case text.text s t =>
    refine Decidable.byContradiction fun hts => hne (congrArg Key.text ?_)
    exact String.le_antisymm (String.not_lt.mp hts) (String.not_lt.mp h)

end Key

/-! ## Entries in order -/

/-- Each key is before all keys that follow it. -/
def InOrder (entries : List (Key × α)) : Prop :=
  entries.Pairwise fun e f => e.1.before f.1 = true

instance (entries : List (Key × α)) : Decidable (InOrder entries) :=
  inferInstanceAs (Decidable (entries.Pairwise _))

theorem InOrder.keys {entries : List (Key × α)} (h : InOrder entries) :
    (entries.map Prod.fst).Pairwise fun k l => k.before l = true :=
  List.pairwise_map.mpr h

/-- The keys of entries in order are different. -/
theorem InOrder.nodup {entries : List (Key × α)} (h : InOrder entries) :
    (entries.map Prod.fst).Nodup := by
  refine h.keys.imp fun {k l} hkl heq => ?_
  rw [heq, Key.before_irrefl] at hkl
  cases hkl

/-- An entry is found under its key. -/
theorem InOrder.lookup_of_mem {entries : List (Key × α)} (h : InOrder entries) {k : Key}
    {v : α} (hmem : (k, v) ∈ entries) : entries.lookup k = some v := by
  obtain ⟨before, after, rfl⟩ := List.append_of_mem hmem
  refine List.lookup_eq_some_iff.mpr ⟨before, after, rfl, fun e he => bne_iff_ne.mpr ?_⟩
  -- the entries in front have keys before `k`
  rintro rfl
  have hself := (List.pairwise_append.mp h).2.2 e he (e.1, v) List.mem_cons_self
  rw [Key.before_irrefl] at hself
  cases hself

theorem InOrder.insertEntry {entries : List (Key × α)} (h : InOrder entries) (k : Key)
    (v : α) : InOrder (insertEntry k v entries) := by
  induction entries with
  | nil => exact List.pairwise_singleton _ _
  | cons e rest ih =>
    obtain ⟨l, w⟩ := e
    obtain ⟨hl, hrest⟩ := List.pairwise_cons.mp h
    rw [ClosureLang.insertEntry]
    split
    · next hkl =>
      subst hkl
      exact List.pairwise_cons.mpr ⟨hl, hrest⟩
    · next hkl =>
      split
      · next hbefore =>
        refine List.pairwise_cons.mpr ⟨fun f hf => ?_, h⟩
        rcases List.mem_cons.mp hf with rfl | hf
        · exact hbefore
        · exact Key.before_trans hbefore (hl f hf)
      · next hbefore =>
        refine List.pairwise_cons.mpr ⟨fun f hf => ?_, ih hrest⟩
        rcases mem_insertEntry hf with rfl | hf
        · exact Key.before_of_not_before hkl hbefore
        · exact hl f hf

/-- Under a key that is not there yet, a value is added to the entries. -/
theorem insertEntry_perm {k : Key} (v : α) {entries : List (Key × α)}
    (hk : k ∉ entries.map Prod.fst) : (insertEntry k v entries).Perm ((k, v) :: entries) := by
  induction entries with
  | nil => exact .refl _
  | cons e rest ih =>
    obtain ⟨l, w⟩ := e
    rw [List.map_cons, List.mem_cons, not_or] at hk
    rw [insertEntry, if_neg hk.1]
    split
    · exact .refl _
    · exact ((ih hk.2).cons (l, w)).trans (.swap (k, v) (l, w) rest)

/-- Entries with different keys that are put in one after the other are added and end up in
order. -/
theorem foldl_insertEntry (entries : List (Key × α)) {start : List (Key × α)}
    (hstart : InOrder start) (hkeys : ((start ++ entries).map Prod.fst).Nodup) :
    InOrder (entries.foldl (fun es e => insertEntry e.1 e.2 es) start) ∧
      (entries.foldl (fun es e => insertEntry e.1 e.2 es) start).Perm (start ++ entries) := by
  induction entries generalizing start with
  | nil => exact ⟨hstart, by simp⟩
  | cons e rest ih =>
    have hmiddle : (start ++ e :: rest).Perm (e :: (start ++ rest)) := List.perm_middle
    have hkeys' : (e.1 :: (start ++ rest).map Prod.fst).Nodup := (hmiddle.map Prod.fst).nodup hkeys
    have hfresh : e.1 ∉ start.map Prod.fst := fun hmem => by
      refine (List.nodup_cons.mp hkeys').1 ?_
      rw [List.map_append]
      exact List.mem_append_left _ hmem
    have hadded : (insertEntry e.1 e.2 start ++ rest).Perm (start ++ e :: rest) :=
      ((insertEntry_perm e.2 hfresh).append_right rest).trans hmiddle.symm
    obtain ⟨horder, hperm⟩ := ih (hstart.insertEntry e.1 e.2)
      ((hadded.map Prod.fst).nodup_iff.mpr hkeys)
    exact ⟨horder, hperm.trans hadded⟩

/-- **Entries end up in order whatever the order in which they come.** -/
theorem foldl_insertEntry_of_perm {entries coming : List (Key × α)} (h : InOrder entries)
    (hperm : entries.Perm coming) :
    coming.foldl (fun es e => insertEntry e.1 e.2 es) [] = entries := by
  have hkeys : (([] ++ coming).map Prod.fst).Nodup := (hperm.map Prod.fst).nodup h.nodup
  obtain ⟨horder, hcoming⟩ := foldl_insertEntry coming List.Pairwise.nil hkeys
  exact List.Perm.eq_of_pairwise (fun e f _ _ hef hfe => (Key.before_asymm hef hfe).elim) horder h
    (hcoming.trans hperm.symm)

/-! ## Keys that are written more than once -/

section Written

variable {start written : List (Key × α)} {k : Key}

theorem InOrder.foldl_insertEntry (h : InOrder start) (written : List (Key × α)) :
    InOrder (written.foldl (fun es e => ClosureLang.insertEntry e.1 e.2 es) start) := by
  induction written generalizing start with
  | nil => exact h
  | cons e written ih => exact ih (h.insertEntry e.1 e.2)

theorem mem_keys_insertEntry {l : Key} {v : α} :
    k ∈ (insertEntry l v start).map Prod.fst ↔ k = l ∨ k ∈ start.map Prod.fst := by
  induction start with
  | nil => simp [insertEntry]
  | cons e start ih =>
    obtain ⟨m, w⟩ := e
    rw [insertEntry]
    split
    · next hlm => simp [hlm]
    · split
      · simp
      · simp only [List.map_cons, List.mem_cons, ih]
        exact or_left_comm

/-- The keys that were put in are the keys that are there. -/
theorem mem_keys_foldl_insertEntry :
    k ∈ (written.foldl (fun es e => insertEntry e.1 e.2 es) start).map Prod.fst ↔
      k ∈ start.map Prod.fst ∨ k ∈ written.map Prod.fst := by
  induction written generalizing start with
  | nil => simp
  | cons e written ih =>
    rw [List.foldl_cons, ih, mem_keys_insertEntry, List.map_cons, List.mem_cons, or_assoc,
      or_left_comm]

/-- What is there was there before or was put in. -/
theorem mem_foldl_insertEntry {e : Key × α}
    (h : e ∈ written.foldl (fun es e => insertEntry e.1 e.2 es) start) :
    e ∈ start ∨ e ∈ written := by
  induction written generalizing start with
  | nil => exact Or.inl h
  | cons d written ih =>
    rcases ih h with h | h
    · rcases mem_insertEntry h with rfl | h
      · exact Or.inr List.mem_cons_self
      · exact Or.inl h
    · exact Or.inr (List.mem_cons_of_mem d h)

theorem lookup_foldl_insertEntry_of_not_mem (h : k ∉ written.map Prod.fst) :
    (written.foldl (fun es e => insertEntry e.1 e.2 es) start).lookup k = start.lookup k := by
  induction written generalizing start with
  | nil => rfl
  | cons e written ih =>
    rw [List.map_cons, List.mem_cons, not_or] at h
    rw [List.foldl_cons, ih h.2, lookup_insertEntry, if_neg h.1]

/-- **Under a key the value is found that was put there last.** -/
theorem lookup_foldl_insertEntry_last {before after : List (Key × α)} {v : α}
    (h : k ∉ after.map Prod.fst) :
    ((before ++ (k, v) :: after).foldl (fun es e => insertEntry e.1 e.2 es) start).lookup k =
      some v := by
  rw [List.foldl_append, List.foldl_cons, lookup_foldl_insertEntry_of_not_mem h,
    lookup_insertEntry, if_pos rfl]

theorem lookup_foldl_insertEntry_getElem? {i : Nat} {v : α} (hi : written[i]? = some (k, v))
    (hlast : ∀ j u, i < j → written[j]? ≠ some (k, u)) :
    (written.foldl (fun es e => insertEntry e.1 e.2 es) start).lookup k = some v := by
  obtain ⟨hlt, hget⟩ := List.getElem?_eq_some_iff.mp hi
  have hsplit : written = written.take i ++ (k, v) :: written.drop (i + 1) := by
    rw [← hget, ← List.drop_eq_getElem_cons hlt, List.take_append_drop]
  rw [hsplit]
  refine lookup_foldl_insertEntry_last fun hmem => ?_
  obtain ⟨e, he, rfl⟩ := List.mem_map.mp hmem
  obtain ⟨j, hj⟩ := List.mem_iff_getElem?.mp he
  rw [List.getElem?_drop] at hj
  exact hlast (i + 1 + j) e.2 (by omega) hj

/-- There are as many entries as different keys that were put in. -/
theorem length_foldl_insertEntry (written : List (Key × α)) :
    (written.foldl (fun es e => insertEntry e.1 e.2 es) []).length =
      (written.map Prod.fst).dedup.length := by
  have horder : InOrder (written.foldl (fun es e => insertEntry e.1 e.2 es) []) :=
    InOrder.foldl_insertEntry List.Pairwise.nil written
  have hkeys : ∀ k, k ∈ (written.foldl (fun es e => insertEntry e.1 e.2 es) []).map Prod.fst ↔
      k ∈ (written.map Prod.fst).dedup := by
    intro k
    rw [mem_keys_foldl_insertEntry, List.mem_dedup]
    simp
  have hperm := (List.perm_ext_iff_of_nodup horder.nodup (List.nodup_dedup _)).mpr hkeys
  rw [← hperm.length_eq, List.length_map]

end Written

/-! ## Stored objects -/

section Stored

variable {τ : Type}

/-- An entry as a literal stores it, with the object that its key stands for. -/
def storedEntry (e : Key × Value τ) : Key × Stored τ := (e.1, ⟨e.1.value, e.2⟩)

@[simp] theorem entriesOf_map_storedEntry (entries : List (Key × Value τ)) :
    entriesOf (entries.map storedEntry) = entries := by
  simp [entriesOf, storedEntry, Function.comp_def]

/-- Putting in objects with their values puts in the values. -/
theorem entriesOf_foldl_insertEntry (written start : List (Key × Stored τ)) :
    entriesOf (written.foldl (fun es e => insertEntry e.1 e.2 es) start) =
      (entriesOf written).foldl (fun es e => insertEntry e.1 e.2 es) (entriesOf start) := by
  induction written generalizing start with
  | nil => rfl
  | cons e written ih =>
    rw [List.foldl_cons, ih, entriesOf_insertEntry]
    rfl

end Stored

/-! ## Values in order -/

section Values

variable {τ : Type}

mutual

/-- Whether the entries of all hashes in a value are in the order of their keys, as they are kept. -/
def Value.inOrder : Value τ → Bool
  | .null => true
  | .int _ => true
  | .bool _ => true
  | .text _ => true
  | .array items => itemsInOrder items
  | .hash entries => decide (InOrder entries) && entriesInOrder entries
  | .closure _ => true
  | .builtin _ => true

/-- Whether all hashes in some values are in order. -/
def itemsInOrder : List (Value τ) → Bool
  | [] => true
  | v :: vs => v.inOrder && itemsInOrder vs

/-- Whether all hashes in the values of some entries are in order. -/
def entriesInOrder : List (Key × Value τ) → Bool
  | [] => true
  | (_, v) :: es => v.inOrder && entriesInOrder es

end

theorem entriesInOrder_iff {es : List (Key × Value τ)} :
    entriesInOrder es = true ↔ ∀ e ∈ es, e.2.inOrder = true := by
  induction es with
  | nil => simp [entriesInOrder]
  | cons e es ih => simp [entriesInOrder, ih]

theorem itemsInOrder_iff {vs : List (Value τ)} :
    itemsInOrder vs = true ↔ ∀ v ∈ vs, v.inOrder = true := by
  induction vs with
  | nil => simp [itemsInOrder]
  | cons v vs ih => simp [itemsInOrder, ih]

/-- A hash is in order if its entries are and the values in them are. -/
theorem Value.inOrder_hash {es : List (Key × Value τ)} :
    (Value.hash es).inOrder = true ↔ InOrder es ∧ ∀ e ∈ es, e.2.inOrder = true := by
  rw [Value.inOrder, Bool.and_eq_true, decide_eq_true_eq, entriesInOrder_iff]

/-- That the hashes in a value are in order goes down into arrays and hashes. -/
theorem Value.inOrder_hereditary : Value.Hereditary fun v : Value τ => v.inOrder = true where
  null := rfl
  key := fun k => by cases k <;> rfl
  array := by
    intro items
    rw [Value.inOrder, itemsInOrder_iff]
  hash := fun h => (Value.inOrder_hash.mp h).2

end Values

end ClosureLang
