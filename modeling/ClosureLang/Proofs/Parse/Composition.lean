import ClosureLang.Proofs.Parse.Locality
import ClosureLang.Proofs.Parse.Unplaced
import ClosureLang.Proofs.Token.Blotting

/-!
# Sources one behind the other

A source that leaves nothing open is read in the same way whatever follows it, and what follows is
read as if it stood alone. That holds of every continuation, also of one with diagnostics, for which
there is no derivation.

The first source has a derivation, though, and it can be made from its tokens as they stand in front
of the continuation. Its last token is a semicolon, which no statement ends with. So the derivation
ends with a statement that has its semicolon, and reading it looks at nothing beyond
(`Statements.readsPrefix`). The continuation says the same words as when it stands alone, only at
other places, and these do not matter (`Cursor.statements_congr`).
-/

namespace ClosureLang

namespace Grammar

theorem Local.covers {Q : List Word → Prop} {ts rest : List Token} (h : Local Q ts rest) :
    ∃ us, ts = us ++ rest := by
  rcases h with ⟨rfl, -⟩ | ⟨ws, ⟨us, hus, -⟩, -⟩
  · exact ⟨ts, (List.append_nil ts).symm⟩
  · exact ⟨us, hus⟩

/-- Between `ts` and `rest` there is nothing, or a semicolon is the last token. -/
def Ended (ts rest : List Token) : Prop :=
  ∃ us, ts = us ++ rest ∧ ∀ t ∈ us.getLast?, t.kind = .semicolon

namespace Ended

variable {ts mid rest : List Token}

theorem tail (h : Ended ts rest) (hts : ∃ us, ts = us ++ mid) (hmid : ∃ us, mid = us ++ rest) :
    Ended mid rest := by
  obtain ⟨us, rfl, hlast⟩ := h
  obtain ⟨vs, hvs⟩ := hts
  obtain ⟨ws, rfl⟩ := hmid
  rw [← List.append_assoc, List.append_cancel_right_eq] at hvs
  refine ⟨ws, rfl, fun t ht => hlast t ?_⟩
  simp [hvs, List.getLast?_append, Option.mem_def.mp ht]

/-- A statement does not end with a semicolon, but for the end of the input. -/
theorem eq_nil {s : Stmt Unit} (h : Ended ts rest) (hs : Statement ts s rest) : rest = [] := by
  rcases hs.isLocal with ⟨hnil, -⟩ | ⟨ws, ⟨us, rfl, rfl⟩, -, ⟨w, hw, hne⟩, -⟩
  · exact hnil
  · obtain ⟨vs, hvs, hlast⟩ := h
    rw [List.append_cancel_right_eq] at hvs
    rw [List.getLast?_map] at hw
    obtain ⟨t, ht, rfl⟩ := Option.map_eq_some_iff.mp hw
    exact absurd (hlast t (hvs ▸ ht)) hne

end Ended

/-- Statements that end with a semicolon are read whatever follows them. -/
theorem Statements.readsPrefix {ts : List Token} {b : List (Stmt Unit)} {rest : List Token} :
    Statements ts b rest → Ended ts rest → ReadsPrefix ts b rest
  | .nil, _ => .nil
  | @Statements.ended t _ us s b rest hs ht hb, h => by
    have hus : ∃ vs, ts = vs ++ us := by
      obtain ⟨vs, rfl⟩ := hs.isLocal.covers
      exact ⟨vs ++ [t], (List.append_assoc vs [t] us).symm⟩
    exact (ReadsPrefix.ended hs.starts hs.read ht).trans
      (hb.readsPrefix (h.tail hus hb.isLocal.covers))
  | @Statements.unended _ us s b rest hs hne hb, h => by
    have hstop : Stops .lowest us ∧ firstKind us ≠ .semicolon := by
      rcases hb.starts with ⟨-, rfl⟩ | ⟨hb', -⟩
      · have hend : EndsStatements false us := Or.inl (h.eq_nil hs)
        exact hend.stops
      · exact hb.stops hb' hne
    exact (ReadsPrefix.unended hs.starts hs.read hstop).trans
      (hb.readsPrefix (h.tail hs.isLocal.covers hb.isLocal.covers))

end Grammar

open Grammar

/-- A source that leaves nothing open is read, and after it the reading goes on. -/
theorem ClosedSource.readsPrefix {source : String} (h : ClosedSource source) (rest : List Char)
    (offset : Nat) : ∃ offset', ReadsPrefix (Scanner.tokens ⟨source.toList ++ rest, offset, false⟩)
      (parse source).program (Scanner.tokens ⟨rest, offset', false⟩) := by
  obtain ⟨offset', hsays⟩ := Scanner.scans_append h.last_kind rest offset false
  have hstatements := (h.isProgram.spellsAll h.nesting_eq_zero).statements hsays
  obtain ⟨us, hus, hwords⟩ := hsays
  refine ⟨offset', hstatements.readsPrefix ⟨us, hus, fun t ht => ?_⟩⟩
  -- the last word of the source is said last
  have hlast : (us.map Token.word).getLast? = some t.word := by
    rw [List.getLast?_map, Option.mem_def.mp ht, Option.map_some]
  rw [hwords, List.getLast?_map] at hlast
  obtain ⟨u, hu, he⟩ := Option.map_eq_some_iff.mp hlast
  exact (congrArg Prod.fst he).symm.trans (h.last_kind u hu)

/-- Characters say the same words wherever they stand. -/
theorem Scanner.words_tokens (cs : List Char) (offset offset' : Nat) (finished : Bool) :
    (Scanner.tokens ⟨cs, offset, finished⟩).map Token.word =
      (Scanner.tokens ⟨cs, offset', finished⟩).map Token.word := by
  obtain ⟨last, us, hus, hwords⟩ := Scanner.scans_rest ⟨cs, offset', finished⟩ offset finished
  have hnil : Scanner.tokens ⟨[], last, finished⟩ = [] := Scanner.tokens_of_nil rfl
  rw [hus, hnil, List.append_nil, hwords]

/-- **Parsing is compositional behind a source that leaves nothing open.** Any source may follow it,
well formed or not. The statements of the two are the statements of the first and then those of the
second, and the diagnostics are those of the second. -/
theorem parse_append {source : String} (h : ClosedSource source) (rest : String) :
    (parse (source ++ rest)).program = (parse source).program ++ (parse rest).program ∧
      (parse (source ++ rest)).diagnostics = (parse rest).diagnostics := by
  obtain ⟨offset, hread⟩ := h.readsPrefix rest.toList 0
  have htokens : (Cursor.ofSource (source ++ rest)).tokens =
      Scanner.tokens ⟨source.toList ++ rest.toList, 0, false⟩ := by
    simp [Cursor.ofSource, Scanner.ofString]
  obtain ⟨m, q, r, hq, hreports, hr, he⟩ :=
    hread htokens (Cursor.ofSource (source ++ rest)).program_eq
  rw [Prod.mk.injEq] at he
  have hwords : q.tokens.map Token.word = (Cursor.ofSource rest).tokens.map Token.word := by
    rw [hq]
    exact Scanner.words_tokens rest.toList offset 0 false
  have hdiagnostics : q.diagnostics = (Cursor.ofSource rest).diagnostics := by
    rw [Cursor.diagnostics, hreports]
    rfl
  have hsame := Cursor.statements_congr hwords hdiagnostics hr (Cursor.ofSource rest).program_eq
  exact ⟨he.1.trans (congrArg _ hsame.1), (congrArg Cursor.diagnostics he.2).trans hsame.2⟩

/-- `let f = fn(x) { if (x) { return {1: x}; } };` -/
def nestedBraces : String :=
  "let f = fn(x) \x7b if (x) \x7b return \x7b1: x\x7d; \x7d \x7d;"

/-- `-f(1) ) } let = ; [f(2`, which goes on with no statement before it and is itself broken. -/
def brokenTail : String := "-f(1) ) \x7d let = ; [f(2"

theorem parse_append_broken :
    ClosedSource nestedBraces ∧ (parse brokenTail).diagnostics ≠ [] ∧
      (parse (nestedBraces ++ brokenTail)).program =
        (parse nestedBraces).program ++ (parse brokenTail).program ∧
      (parse (nestedBraces ++ brokenTail)).diagnostics = (parse brokenTail).diagnostics := by
  have h : ClosedSource nestedBraces := by decide +kernel
  exact ⟨h, by decide +kernel, parse_append h brokenTail⟩

end ClosureLang
