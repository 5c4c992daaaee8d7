import ClosureLang.Eval.Program
import ClosureLang.Proofs.Value.Entries

/-!
# Hash literals

The pairs of a hash literal are evaluated from left to right to the objects that are written
(`PairsGive`), and each is stored under the key of its first object. What is stored is therefore
known from these objects alone: under a key stands the pair that was written there last, and the
first object of that pair has this key.

A key stands for one value, the integer, boolean or string itself, so two objects have the same key
exactly if they have the same type and are equal. An integer never has the key of a boolean,
although the operator `==` can take them for equal.
-/

namespace ClosureLang

variable {τ : Type}

/-! ## Objects that are written -/

/-- The pairs of a hash literal, evaluated from left to right, give a key and a value each, and take
one machine to another. -/
inductive PairsGive (call : Caller τ) (scope : ScopeId) : List (Expr τ × Expr τ) → Machine τ →
    List (Value τ × Value τ) → Machine τ → Prop where
  | nil {s : Machine τ} : PairsGive call scope [] s [] s
  | cons {x y : Expr τ} {pairs : List (Expr τ × Expr τ)} {k v : Value τ}
      {objects : List (Value τ × Value τ)} {s t u w : Machine τ} :
      x.eval call scope s = some (.ok k, t) → y.eval call scope t = some (.ok v, u) →
      PairsGive call scope pairs u objects w →
      PairsGive call scope ((x, y) :: pairs) s ((k, v) :: objects) w

/-- The objects of entries: the value that the key stands for, and the value under it. -/
def objectsOf (written : List (Key × Value τ)) : List (Value τ × Value τ) :=
  written.map fun e => (e.1.value, e.2)

section Pairs

variable {call : Caller τ} {scope : ScopeId}

/-- The pairs of a literal give one list of objects. -/
theorem PairsGive.unique {pairs : List (Expr τ × Expr τ)}
    {objects objects' : List (Value τ × Value τ)} {s t t' : Machine τ}
    (h : PairsGive call scope pairs s objects t) (h' : PairsGive call scope pairs s objects' t') :
    objects' = objects ∧ t' = t := by
  induction h generalizing objects' with
  | nil =>
    cases h'
    exact ⟨rfl, rfl⟩
  | cons hx hy _ ih =>
    cases h' with
    | cons hx' hy' hrest =>
      cases hx.symm.trans hx'
      cases hy.symm.trans hy'
      obtain ⟨rfl, rfl⟩ := ih hrest
      exact ⟨rfl, rfl⟩

/-- The key of a value is found only if the value is what that key stands for. -/
theorem lift_key_ok {v : Value τ} {k : Key} {s t : Machine τ}
    (h : (Eval.lift v.key : Eval τ Key) s = some (.ok k, t)) : v = k.value ∧ t = s := by
  unfold Value.key at h
  split at h
  · next l hl =>
    cases h
    exact ⟨Value.key?_eq_some hl, rfl⟩
  · cases h

/-- The pairs of a literal are stored one after the other. -/
theorem evalPairs_ok {pairs : List (Expr τ × Expr τ)} {start stored : List (Key × Stored τ)}
    {s t : Machine τ} (h : evalPairs call scope start pairs s = some (.ok stored, t)) :
    ∃ written, PairsGive call scope pairs s (objectsOf written) t ∧
      stored = (written.map storedEntry).foldl (fun es e => insertEntry e.1 e.2 es) start := by
  induction pairs generalizing start s with
  | nil =>
    cases h
    exact ⟨[], .nil, rfl⟩
  | cons p pairs ih =>
    obtain ⟨x, y⟩ := p
    rw [evalPairs] at h
    rcases Eval.bind_cases h with ⟨object, s₁, hx, h₁⟩ | ⟨_, -, hexit⟩
    · rcases Eval.bind_cases h₁ with ⟨k, s₂, hk, h₂⟩ | ⟨_, -, hexit⟩
      · -- the object has a key, so it is the one that the key stands for
        obtain ⟨rfl, rfl⟩ := lift_key_ok hk
        rcases Eval.bind_cases h₂ with ⟨v, s₃, hy, h₃⟩ | ⟨_, -, hexit⟩
        · obtain ⟨written, hwritten, rfl⟩ := ih h₃
          exact ⟨(k, v) :: written, .cons hx hy hwritten, rfl⟩
        · cases hexit
      · cases hexit
    · cases hexit

end Pairs

/-! ## Looking into a hash -/

/-- The types of the values that have a key. -/
def keyTypes : List ValueType := [.integer, .boolean, .string]

theorem Value.exists_key {q : Value τ} (h : q.type ∈ keyTypes) : ∃ k : Key, q = k.value := by
  cases q with
  | int n => exact ⟨.int n, rfl⟩
  | bool b => exact ⟨.bool b, rfl⟩
  | text s => exact ⟨.text s, rfl⟩
  | _ => simp [Value.type, keyTypes] at h

theorem Value.index_key (entries : List (Key × Value τ)) (k : Key) :
    (Value.hash entries).index k.value = .ok ((entries.lookup k).getD .null) := by
  cases k <;> rfl

/-- The index finds the value that is stored under the key. -/
theorem Value.index_entriesOf {stored : List (Key × Stored τ)} {k : Key} {o : Stored τ}
    (h : stored.lookup k = some o) :
    (Value.hash (entriesOf stored)).index k.value = .ok o.value := by
  rw [index_key, lookup_entriesOf, h, Option.map_some, Option.getD_some]

theorem Value.index_of_not_mem {q : Value τ} (entries : List (Key × Value τ))
    (h : q.type ∉ keyTypes) : (Value.hash entries).index q = .error (.badKey q.type) := by
  cases q with
  | int _ | bool _ | text _ => simp [Value.type, keyTypes] at h
  | _ => rfl

theorem Key.type_value_mem (k : Key) : (k.value : Value τ).type ∈ keyTypes := by
  cases k <;> simp [Key.value, Value.type, keyTypes]

theorem Key.key_value (k : Key) : (k.value : Value τ).key = .ok k := by
  rw [Value.key, Value.key?_value]

theorem filterMap_key?_objectsOf (written : List (Key × Value τ)) :
    ((objectsOf written).filterMap fun e => e.1.key?) = written.map Prod.fst := by
  simp [objectsOf, List.filterMap_map]

section Written

variable {written : List (Key × Value τ)} {q : Value τ}

/-- The last object that was written with a key is stored under that key, with its value. -/
theorem lookup_stored_last {i : Nat} {w : Value τ} (hi : (objectsOf written)[i]? = some (q, w))
    (hlast : ∀ j u, i < j → (objectsOf written)[j]? ≠ some (q, u)) {k : Key} (hk : q.key = .ok k) :
    ((written.map storedEntry).foldl (fun es e => insertEntry e.1 e.2 es) []).lookup k =
      some ⟨q, w⟩ := by
  rw [objectsOf, List.getElem?_map] at hi
  obtain ⟨⟨l, v⟩, he, hqw⟩ := Option.map_eq_some_iff.mp hi
  cases hqw
  obtain rfl : l = k := Except.ok.inj (l.key_value.symm.trans hk)
  refine lookup_foldl_insertEntry_getElem? (i := i) ?_ fun j u hj hju => ?_
  · rw [List.getElem?_map, he]
    rfl
  · rw [List.getElem?_map] at hju
    obtain ⟨⟨m, x⟩, hm, hmu⟩ := Option.map_eq_some_iff.mp hju
    cases hmu
    refine hlast j x hj ?_
    rw [objectsOf, List.getElem?_map, hm, Option.map_some]

/-- An object that has a key and under which nothing was written finds `null`. -/
theorem index_not_written (hq : q.type ∈ keyTypes) (hnone : q ∉ (objectsOf written).map Prod.fst) :
    (Value.hash (written.foldl (fun es e => insertEntry e.1 e.2 es) [])).index q = .ok .null := by
  obtain ⟨k, rfl⟩ := Value.exists_key hq
  have hk : k ∉ written.map Prod.fst := by
    intro hmem
    refine hnone ?_
    obtain ⟨e, he, rfl⟩ := List.mem_map.mp hmem
    exact List.mem_map.mpr ⟨_, List.mem_map.mpr ⟨e, he, rfl⟩, rfl⟩
  rw [Value.index_key, lookup_foldl_insertEntry_of_not_mem hk]
  rfl

/-- What is stored is a pair that was written, under the key of its first object. -/
theorem mem_stored {e : Key × Stored τ}
    (he : e ∈ (written.map storedEntry).foldl (fun es e => insertEntry e.1 e.2 es) []) :
    e.2.object.key = .ok e.1 ∧ (e.2.object, e.2.value) ∈ objectsOf written := by
  have hmem := (mem_foldl_insertEntry he).resolve_left List.not_mem_nil
  obtain ⟨d, hd, rfl⟩ := List.mem_map.mp hmem
  exact ⟨d.1.key_value, List.mem_map.mpr ⟨d, hd, rfl⟩⟩

end Written

/-! ## What a hash literal holds -/

/-- **A hash literal holds the last value written under each key.** Its pairs give one list of
objects, a key and a value each. The index `q` gives the value of the last pair whose key is `q`,
`null` if `q` could be a key and is none of them, and an error if it could be none. What is stored
for the hash under a key is the last pair with that key, both its object and its value. There are as
many entries as different keys, and each stored object has the key under which it is stored. -/
theorem hash_literal_holds_last_written {call : Caller τ} {scope : ScopeId}
    {pairs : List (Expr τ × Expr τ)} {s t : Machine τ} {v : Value τ}
    (h : (Expr.hash pairs).eval call scope s = some (.ok v, t)) :
    ∃ stored objects, evalPairs call scope [] pairs s = some (.ok stored, t) ∧
      v = .hash (entriesOf stored) ∧
      (∀ found u, PairsGive call scope pairs s found u ↔ found = objects ∧ u = t) ∧
      (∀ e ∈ objects, e.1.type ∈ keyTypes) ∧
      (∀ (q : Value τ) (i : Nat) w, objects[i]? = some (q, w) →
        (∀ j u, i < j → objects[j]? ≠ some (q, u)) →
        v.index q = .ok w ∧ ∀ k, q.key = .ok k → stored.lookup k = some ⟨q, w⟩) ∧
      (∀ q, q.type ∈ keyTypes → q ∉ objects.map Prod.fst → v.index q = .ok .null) ∧
      (∀ q, q.type ∉ keyTypes → v.index q = .error (.badKey q.type)) ∧
      (entriesOf stored).length = (objects.filterMap fun e => e.1.key?).dedup.length ∧
      ∀ e ∈ stored, e.2.object.key = .ok e.1 ∧ (e.2.object, e.2.value) ∈ objects := by
  rw [Expr.eval] at h
  rcases Eval.bind_cases h with ⟨stored, u, hpairs, hu⟩ | ⟨_, -, hexit⟩
  · obtain ⟨written, hwritten, rfl⟩ := evalPairs_ok hpairs
    cases hu
    have htypes : ∀ e ∈ objectsOf written, e.1.type ∈ keyTypes := fun e he => by
      obtain ⟨d, -, rfl⟩ := List.mem_map.mp he
      exact d.1.type_value_mem
    refine ⟨_, objectsOf written, hpairs, rfl, fun found u => ⟨hwritten.unique, ?_⟩, htypes,
      fun q i w hi hlast => ?_, ?_⟩
    · rintro ⟨rfl, rfl⟩
      exact hwritten
    · obtain ⟨k, rfl⟩ := Value.exists_key (htypes _ (List.mem_of_getElem? hi))
      exact ⟨Value.index_entriesOf (lookup_stored_last hi hlast k.key_value),
        fun l => lookup_stored_last hi hlast⟩
    -- the entries are the values that were written, put in one after the other
    · rw [entriesOf_foldl_insertEntry, entriesOf_map_storedEntry]
      refine ⟨fun q => index_not_written, fun q => Value.index_of_not_mem _, ?_, fun e => mem_stored⟩
      rw [filterMap_key?_objectsOf]
      exact length_foldl_insertEntry written
  · cases hexit

/-- Four pairs with three keys. The operator `==` takes `1` and `true` for equal. -/
def repeatedKeys : List (Expr Unit × Expr Unit) :=
  [(.int 1, .text "one"), (.bool true, .text "yes"), (.text "1", .array []),
    (.binary .add (.int 0) (.int 1), .text "again")]

theorem hash_literal_holds_last_written_repeatedKeys :
    ∃ v : Value Unit, (Expr.hash repeatedKeys).eval (apply 0) 0 {} = some (.ok v, {}) ∧
      v.index (.int 1) = .ok (.text "again") ∧ v.index (.bool true) = .ok (.text "yes") ∧
      v.index (.text "true") = .ok .null ∧ v.index (.array []) = .error (.badKey .array) ∧
      ∃ stored, v = .hash (entriesOf stored) ∧ (entriesOf stored).length = 3 ∧
        stored.lookup (.int 1) = some ⟨.int 1, .text "again"⟩ := by
  have heval : ∃ v : Value Unit, (Expr.hash repeatedKeys).eval (apply 0) 0 {} = some (.ok v, {}) :=
    ⟨_, rfl⟩
  obtain ⟨v, hv⟩ := heval
  obtain ⟨stored, objects, -, hstored, hobjects, -, hlast, hnull, herror, hlength, -⟩ :=
    hash_literal_holds_last_written hv
  obtain ⟨rfl, -⟩ := (hobjects _ {}).mp
    (.cons rfl rfl (.cons rfl rfl (.cons rfl rfl (.cons rfl rfl .nil))))
  have hagain := hlast (.int 1) 3 _ rfl fun j u hj => by
    rw [List.getElem?_eq_none hj]
    simp
  have hyes := hlast (.bool true) 1 _ rfl fun j u hj => by
    rcases j with _ | _ | _ | _ | j <;> simp at hj ⊢
  exact ⟨v, hv, hagain.1, hyes.1, hnull (.text "true") (by decide) (by simp),
    herror (.array []) (by decide), stored, hstored, by rw [hlength]; rfl, hagain.2 (.int 1) rfl⟩

end ClosureLang
