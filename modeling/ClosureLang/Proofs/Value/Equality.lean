import ClosureLang.Proofs.Value.Entries
import ClosureLang.Proofs.Value.Functions
import ClosureLang.Value.Equality
import ClosureLang.Value.Text
import Mathlib.Data.List.Perm.Subperm

/-!
# Equality of values is an equivalence

Equality looks at all of a value but the bodies of its functions, which it tells by their tags. So
two values are equal exactly if they become the same tree when the body of every function is replaced
by a block that depends on its tag only (`Value.same_iff`). All laws of equality follow from this.

Hashes are compared entry by entry, in the order of their keys. This is the comparison of maps, which
asks only that there are as many entries and that every entry of the one is found in the other
(`sameEntries_iff`): the keys of the one are then all the keys of the other. It is so for hashes whose
keys are in order, as they are in every value that an evaluation reaches
(`ClosureLang.Proofs.Eval.Ordered`).
-/

namespace ClosureLang

variable {τ : Type}

/-! ## Bodies by tag -/

mutual

/-- The value in which every function has the body that `block` gives for its tag. -/
def Value.withBodies (block : τ → Block τ) : Value τ → Value τ
  | .null => .null
  | .int n => .int n
  | .bool b => .bool b
  | .text s => .text s
  | .array items => .array (itemsWithBodies block items)
  | .hash entries => .hash (entriesWithBodies block entries)
  | .closure f => .closure { f with body := block f.tag }
  | .builtin f => .builtin f

/-- Values in which every function has the body that `block` gives for its tag. -/
def itemsWithBodies (block : τ → Block τ) : List (Value τ) → List (Value τ)
  | [] => []
  | v :: vs => v.withBodies block :: itemsWithBodies block vs

/-- Entries in whose values every function has the body that `block` gives for its tag. -/
def entriesWithBodies (block : τ → Block τ) : List (Key × Value τ) → List (Key × Value τ)
  | [] => []
  | (k, v) :: es => (k, v.withBodies block) :: entriesWithBodies block es

end

section Same

variable [DecidableEq τ] (block : τ → Block τ)

mutual

/-- **Values are equal if they are the same tree but for the bodies of functions with the same
tag.** -/
theorem Value.same_iff : ∀ v w : Value τ,
    v.same w = true ↔ v.withBodies block = w.withBodies block
  | .null, w => by cases w <;> simp [Value.same, Value.withBodies]
  | .int _, w => by cases w <;> simp [Value.same, Value.withBodies]
  | .bool _, w => by cases w <;> simp [Value.same, Value.withBodies]
  | .text _, w => by cases w <;> simp [Value.same, Value.withBodies]
  | .array vs, w => by cases w <;> simp [Value.same, Value.withBodies, sameItems_iff vs]
  | .hash es, w => by cases w <;> simp [Value.same, Value.withBodies, sameEntries_iff_withBodies es]
  | .closure ⟨_, _, _, _⟩, w => by
    cases w with
    | closure g =>
      -- the bodies are equal if the tags are
      simp only [Value.same, Closure.same, Value.withBodies, Value.closure.injEq, Closure.mk.injEq,
        Bool.and_eq_true, beq_iff_eq, decide_eq_true_eq]
      constructor
      · rintro ⟨⟨hparams, htag⟩, hscope⟩
        exact ⟨hparams, congrArg block htag, htag, hscope⟩
      · rintro ⟨hparams, -, htag, hscope⟩
        exact ⟨⟨hparams, htag⟩, hscope⟩
    | _ => simp [Value.same, Value.withBodies]
  | .builtin _, w => by cases w <;> simp [Value.same, Value.withBodies]

theorem sameItems_iff : ∀ vs ws : List (Value τ),
    sameItems vs ws = true ↔ itemsWithBodies block vs = itemsWithBodies block ws
  | [], ws => by cases ws <;> simp [sameItems, itemsWithBodies]
  | v :: vs, ws => by
    cases ws <;> simp [sameItems, itemsWithBodies, v.same_iff, sameItems_iff vs]

theorem sameEntries_iff_withBodies : ∀ es fs : List (Key × Value τ),
    sameEntries es fs = true ↔ entriesWithBodies block es = entriesWithBodies block fs
  | [], fs => by cases fs <;> simp [sameEntries, entriesWithBodies]
  | (k, v) :: es, fs => by
    cases fs with
    | nil => simp [sameEntries, entriesWithBodies]
    | cons f fs =>
      obtain ⟨l, w⟩ := f
      simp [sameEntries, entriesWithBodies, v.same_iff, sameEntries_iff_withBodies es]

end

end Same

/-! ## Functions with the bodies of their tags -/

mutual

/-- A value stays what it is if its functions have the bodies of their tags already. -/
theorem Value.withBodies_self {block : τ → Block τ} : ∀ v : Value τ,
    (v.AllFunctions fun f => f.body = block f.tag) → v.withBodies block = v
  | .null, _ => rfl
  | .int _, _ => rfl
  | .bool _, _ => rfl
  | .text _, _ => rfl
  | .array items, h => by
    rw [Value.withBodies, itemsWithBodies_self items (Value.AllFunctions.array.mp h)]
  | .hash entries, h => by
    rw [Value.withBodies, entriesWithBodies_self entries (Value.AllFunctions.hash.mp h)]
  | .closure f, h => by rw [Value.withBodies, ← Value.AllFunctions.closure.mp h]
  | .builtin _, _ => rfl

theorem itemsWithBodies_self {block : τ → Block τ} : ∀ vs : List (Value τ),
    (∀ v ∈ vs, v.AllFunctions fun f => f.body = block f.tag) → itemsWithBodies block vs = vs
  | [], _ => rfl
  | v :: vs, h => by
    rw [List.forall_mem_cons] at h
    rw [itemsWithBodies, v.withBodies_self h.1, itemsWithBodies_self vs h.2]

theorem entriesWithBodies_self {block : τ → Block τ} : ∀ es : List (Key × Value τ),
    (∀ e ∈ es, e.2.AllFunctions fun f => f.body = block f.tag) → entriesWithBodies block es = es
  | [], _ => rfl
  | (k, v) :: es, h => by
    rw [List.forall_mem_cons] at h
    rw [entriesWithBodies, v.withBodies_self h.1, entriesWithBodies_self es h.2]

end

/-- What equality looks at decides the type of a value, whether it counts as true and its key. -/
theorem Value.observed_withBodies (block : τ → Block τ) (v : Value τ) :
    (v.withBodies block).type = v.type ∧ (v.withBodies block).truthy = v.truthy ∧
      (v.withBodies block).key = v.key := by
  cases v <;> exact ⟨rfl, rfl, rfl⟩

/-- Every value equals itself. -/
theorem Value.same_self [DecidableEq τ] (v : Value τ) : v.same v = true :=
  (v.same_iff (fun _ => []) v).mpr rfl

/-- Equal values are the same tree, if the tag of a function decides its body. -/
theorem Value.eq_of_same [DecidableEq τ] {block : τ → Block τ} {v w : Value τ}
    (hv : v.AllFunctions fun f => f.body = block f.tag)
    (hw : w.AllFunctions fun f => f.body = block f.tag) (h : v.same w = true) : v = w := by
  rw [← v.withBodies_self hv, (v.same_iff block w).mp h, w.withBodies_self hw]

/-! ## Hashes as maps -/

section Maps

variable {es fs : List (Key × Value τ)}

/-- Entries in order have the same keys if there are as many of the one as of the other and the keys
of the one are keys of the other. -/
theorem InOrder.keys_eq (hes : InOrder es) (hfs : InOrder fs) (hlength : es.length = fs.length)
    (hkeys : ∀ e ∈ es, e.1 ∈ fs.map Prod.fst) : es.map Prod.fst = fs.map Prod.fst := by
  have hsubset : es.map Prod.fst ⊆ fs.map Prod.fst := by
    intro k hk
    obtain ⟨e, he, rfl⟩ := List.mem_map.mp hk
    exact hkeys e he
  -- different keys, each of them among the others, which are not more: so they are all of them
  have hperm : (es.map Prod.fst).Perm (fs.map Prod.fst) := by
    refine (hes.nodup.subperm hsubset).perm_of_length_le (Nat.le_of_eq ?_)
    rw [List.length_map, List.length_map, hlength]
  exact List.Perm.eq_of_pairwise (fun k l _ _ hkl hlk => (Key.before_asymm hkl hlk).elim)
    hes.keys hfs.keys hperm

variable [DecidableEq τ]

theorem length_eq_of_sameEntries (h : sameEntries es fs = true) : es.length = fs.length := by
  induction es generalizing fs with
  | nil =>
    cases fs with
    | nil => rfl
    | cons f fs => simp [sameEntries] at h
  | cons e es ih =>
    cases fs with
    | nil => simp [sameEntries] at h
    | cons f fs =>
      rw [sameEntries, Bool.and_eq_true] at h
      rw [List.length_cons, List.length_cons, ih h.2]

theorem exists_mem_of_sameEntries (h : sameEntries es fs = true) {e : Key × Value τ}
    (he : e ∈ es) : ∃ w, (e.1, w) ∈ fs ∧ e.2.same w = true := by
  induction es generalizing fs with
  | nil => cases he
  | cons d es ih =>
    cases fs with
    | nil => simp [sameEntries] at h
    | cons f fs =>
      simp only [sameEntries, Bool.and_eq_true, beq_iff_eq] at h
      obtain ⟨⟨hkey, hsame⟩, hrest⟩ := h
      rcases List.mem_cons.mp he with rfl | he
      · exact ⟨f.2, by simp [hkey], hsame⟩
      · obtain ⟨w, hw, hew⟩ := ih hrest he
        exact ⟨w, List.mem_cons_of_mem _ hw, hew⟩

theorem sameEntries_of_keys_eq (hkeys : es.map Prod.fst = fs.map Prod.fst)
    (h : ∀ e ∈ es, ∀ f ∈ fs, e.1 = f.1 → e.2.same f.2 = true) : sameEntries es fs = true := by
  induction es generalizing fs with
  | nil =>
    cases fs with
    | nil => rfl
    | cons f fs => simp at hkeys
  | cons e es ih =>
    cases fs with
    | nil => simp at hkeys
    | cons f fs =>
      rw [List.map_cons, List.map_cons, List.cons.injEq] at hkeys
      have hrest := ih hkeys.2 fun d hd g hg =>
        h d (List.mem_cons_of_mem _ hd) g (List.mem_cons_of_mem _ hg)
      have hfirst := h e List.mem_cons_self f List.mem_cons_self hkeys.1
      simp [sameEntries, hkeys.1, hfirst, hrest]

/-- **Hashes are equal as maps are**: they have as many entries, and every entry of the first is
found in the second, with an equal value. -/
theorem sameEntries_iff (hes : InOrder es) (hfs : InOrder fs) :
    sameEntries es fs = true ↔ es.length = fs.length ∧
      ∀ e ∈ es, ∃ w, fs.lookup e.1 = some w ∧ e.2.same w = true := by
  constructor
  · intro h
    refine ⟨length_eq_of_sameEntries h, fun e he => ?_⟩
    obtain ⟨w, hw, hsame⟩ := exists_mem_of_sameEntries h he
    exact ⟨w, hfs.lookup_of_mem hw, hsame⟩
  · rintro ⟨hlength, hfound⟩
    have hkeys : es.map Prod.fst = fs.map Prod.fst := by
      refine hes.keys_eq hfs hlength fun e he => ?_
      obtain ⟨w, hw, -⟩ := hfound e he
      exact List.mem_map.mpr ⟨(e.1, w), mem_of_lookup hw, rfl⟩
    refine sameEntries_of_keys_eq hkeys fun e he f hf hkey => ?_
    obtain ⟨w, hw, hsame⟩ := hfound e he
    rw [hkey, hfs.lookup_of_mem hf] at hw
    cases hw
    exact hsame

end Maps

/-! ## The laws of equality -/

/-- **Equality of values is an equivalence that nothing observable contradicts.** Equal values have
the same type, count as true or not alike, and have the same key, or none with the same error. If the
tag of a function decides its body, they have the same text. Hashes are equal as maps are: with as
many entries, and every entry of the one found in the other. -/
theorem same_is_equivalence [DecidableEq τ] :
    (∀ v : Value τ, v.same v = true) ∧
      (∀ v w : Value τ, v.same w = true → w.same v = true) ∧
      (∀ u v w : Value τ, u.same v = true → v.same w = true → u.same w = true) ∧
      (∀ v w : Value τ, v.same w = true →
        v.type = w.type ∧ v.truthy = w.truthy ∧ v.key = w.key) ∧
      (∀ (block : τ → Block τ) (v w : Value τ), (v.AllFunctions fun f => f.body = block f.tag) →
        (w.AllFunctions fun f => f.body = block f.tag) → v.same w = true →
          v.display = w.display) ∧
      ∀ es fs : List (Key × Value τ), InOrder es → InOrder fs →
        ((Value.hash es).same (.hash fs) = true ↔ es.length = fs.length ∧
          ∀ e ∈ es, ∃ w, fs.lookup e.1 = some w ∧ e.2.same w = true) := by
  have hsame : ∀ v w : Value τ, v.same w = true ↔
      v.withBodies (fun _ => []) = w.withBodies fun _ => [] := Value.same_iff _
  refine ⟨Value.same_self, fun v w h => ?_, fun u v w huv hvw => ?_, fun v w h => ?_,
    fun block v w hv hw h => ?_, fun es fs hes hfs => ?_⟩
  · exact (hsame w v).mpr ((hsame v w).mp h).symm
  · exact (hsame u w).mpr (((hsame u v).mp huv).trans ((hsame v w).mp hvw))
  · obtain ⟨htype, htruthy, hkey⟩ := v.observed_withBodies fun _ => []
    obtain ⟨htype', htruthy', hkey'⟩ := w.observed_withBodies fun _ => []
    rw [(hsame v w).mp h] at htype htruthy hkey
    exact ⟨htype.symm.trans htype', htruthy.symm.trans htruthy', hkey.symm.trans hkey'⟩
  · rw [Value.eq_of_same hv hw h]
  · rw [Value.same]
    exact sameEntries_iff hes hfs

/-- A function under `1` and an array under `true`. -/
def functionFirst : List (Key × Value Nat) :=
  insertEntry (.bool true) (.array [.builtin .len])
    (insertEntry (.int 1) (.closure ⟨["x"], [.expr (.name "x")], 7, 0⟩) [])

/-- The same, put in the other way round. -/
def functionLast : List (Key × Value Nat) :=
  insertEntry (.int 1) (.closure ⟨["x"], [.expr (.name "x")], 7, 0⟩)
    (insertEntry (.bool true) (.array [.builtin .len]) [])

theorem same_is_equivalence_functions : InOrder functionFirst ∧ InOrder functionLast ∧
    (Value.hash functionFirst).same (.hash functionLast) = true ∧
    (Value.hash functionLast).same (.hash functionFirst) = true ∧
    (Value.hash functionFirst).display = (Value.hash functionLast).display := by
  obtain ⟨hself, hsymm, -, -, hdisplay, hmaps⟩ := same_is_equivalence (τ := Nat)
  have hfirst : InOrder functionFirst := by decide
  have hlast : InOrder functionLast := by decide
  have hbodies : (Value.hash functionFirst).AllFunctions fun f => f.body = [.expr (.name "x")] := by
    intro f hf
    cases List.mem_singleton.mp hf
    rfl
  have hsame : (Value.hash functionFirst).same (.hash functionLast) = true := by
    refine (hmaps _ _ hfirst hlast).mpr ⟨rfl, fun e he => ⟨e.2, ?_, hself e.2⟩⟩
    exact hlast.lookup_of_mem he
  exact ⟨hfirst, hlast, hsame, hsymm _ _ hsame, hdisplay (fun _ => _) _ _ hbodies hbodies hsame⟩

end ClosureLang
