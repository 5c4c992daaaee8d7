import ClosureLang.Command.LineLoop
import ClosureLang.Proofs.Eval.Alike
import ClosureLang.Proofs.Eval.Returns
import ClosureLang.Proofs.Parse.Exact
import ClosureLang.Proofs.Parse.Locality
import ClosureLang.Proofs.Text.Lines
import ClosureLang.Proofs.Token.Joining

/-!
# Scripts and the line loop agree

A script is parsed as a whole and run on a machine of its own; the line loop parses and runs its
lines one by one, on one machine. The two come to the same for lines that leave nothing open
(`ClosedSource`): joined, they parse to their programs one behind the other (`parse_joinLines`), and
these are run one after the other as long as none of them returns (`run_lines`).

The machines differ in the record of calls, which the line loop begins anew with each line. Nothing
in an evaluation depends on it, which here is a case of machines with stores that are alike.

Nothing depends on how the line loop reads its input either, as long as it reads these lines.
-/

namespace ClosureLang

open Grammar

/-! ## Parsing joined lines -/

theorem statements_nil (offset : Nat) : Statements (Scanner.tokens ⟨[], offset, false⟩) [] [] := by
  rw [Scanner.tokens_of_nil rfl]
  exact .nil

theorem statements_joinLines : ∀ {lines : List String}, (∀ line ∈ lines, ClosedSource line) →
    ∀ offset, Statements (Scanner.tokens ⟨(joinLines lines).toList, offset, false⟩)
      (lines.flatMap fun line => (parse line).program) []
  | [], _, offset => statements_nil offset
  | [line], h, offset => by
    have hline := (h line List.mem_cons_self).statements_append statements_nil offset
    rwa [List.append_nil] at hline
  | line :: next :: lines, h, offset => by
    have hnext := statements_joinLines fun l hl => h l (List.mem_cons_of_mem line hl)
    have hfeed : ∀ offset, Statements
        (Scanner.tokens ⟨'\n' :: (joinLines (next :: lines)).toList, offset, false⟩)
        ((next :: lines).flatMap fun line => (parse line).program) [] := by
      intro offset
      obtain ⟨offset', htokens⟩ := Scans.blank (c := '\n') rfl (.refl _) offset false
      rw [htokens.nil]
      exact hnext offset'
    have htext : (joinLines (line :: next :: lines)).toList =
        line.toList ++ '\n' :: (joinLines (next :: lines)).toList := by
      simp [joinLines, String.intercalate_cons_cons]
    rw [htext, List.flatMap_cons]
    exact (h line List.mem_cons_self).statements_append hfeed offset

/-- **Lines that leave nothing open parse to their programs one behind the other.** -/
theorem parse_joinLines {lines : List String} (h : ∀ line ∈ lines, ClosedSource line) :
    (parse (joinLines lines)).diagnostics = [] ∧
      (parse (joinLines lines)).program = lines.flatMap fun line => (parse line).program := by
  refine parse_of_program ?_
  rw [dropLast_tokenize]
  exact statements_joinLines h 0

/-! ## Answers -/

/-- The answer to a source without diagnostics is what its program comes to. -/
theorem answerSource_of_quiet {source : String} (h : (parse source).diagnostics = []) (depth : Nat)
    (machine : Machine Unit) :
    (answerSource depth machine source).map (fun a => (a.output, a.failure.isNone, a.machine)) =
      ((parse source).program.run depth 0 { machine with calls := #[] }).map
        fun x => (outcomeLine x.1, x.1.isOk, x.2) := by
  have hempty : (parse source).reports.isEmpty = true := by
    rw [List.map_eq_nil_iff.mp h]
    rfl
  simp only [answerSource, hempty, if_true]
  rcases (parse source).program.run depth 0 { machine with calls := #[] } with - | ⟨e | v, t⟩
  all_goals rfl

/-- What is printed for an outcome, and the exit code. -/
def verdict {τ : Type} (r : Except EvalError (Value τ)) : String × Nat :=
  (outcomeLine r, if r.isOk then 0 else 1)

theorem answerSource_verdict {source : String} (h : (parse source).diagnostics = []) (depth : Nat)
    (machine : Machine Unit) :
    (answerSource depth machine source).map
        (fun a => (a.output, if a.failure.isNone then 0 else 1)) =
      ((parse source).program.run depth 0 { machine with calls := #[] }).map
        fun x => verdict x.1 := by
  have hanswer := congrArg (Option.map fun x => (x.1, if x.2.1 then 0 else 1))
    (answerSource_of_quiet h depth machine)
  rwa [Option.map_map, Option.map_map] at hanswer

/-- The answers to lines that all have a value: what is printed for them, and the machine that is
left. There is none if a line fails or has no end. -/
def answerValues (depth : Nat) (machine : Machine Unit) :
    List String → Option (String × Machine Unit)
  | [] => some ("", machine)
  | line :: lines =>
    match answerLine depth machine line with
    | some ⟨_, output, none, machine⟩ =>
      (answerValues depth machine lines).map fun (rest, machine) => (output ++ rest, machine)
    | _ => none

theorem answerValues_cons {depth : Nat} {m machine : Machine Unit} {line earlier : String}
    {lines : List String} (h : answerValues depth m (line :: lines) = some (earlier, machine)) :
    ∃ a rest, answerLine depth m line = some a ∧ a.failure = none ∧
      answerValues depth a.machine lines = some (rest, machine) ∧ earlier = a.output ++ rest := by
  rw [answerValues] at h
  split at h
  · next events output m' ha =>
    obtain ⟨⟨rest, m''⟩, hrest, heq⟩ := Option.map_eq_some_iff.mp h
    cases heq
    exact ⟨_, rest, ha, rfl, hrest, rfl⟩
  · cases h

theorem answerLines_cons {depth : Nat} {m : Machine Unit} {line : String} {a : Answer}
    (ha : answerLine depth m line = some a) (lines : List (Option String)) :
    (answerLines depth m (some line :: lines)).map (fun x => x.2.1) =
      (answerLines depth a.machine lines).map fun x => a.output ++ x.2.1 := by
  simp only [answerLines, ha]
  rcases answerLines depth a.machine lines with - | ⟨events, output, failure⟩ <;> rfl

/-- What the line loop prints, if the first lines all have a value. -/
theorem answerLines_append {depth : Nat} {m machine : Machine Unit} {earlier : String}
    {init : List String} (h : answerValues depth m init = some (earlier, machine))
    (rest : List (Option String)) :
    (answerLines depth m (init.map some ++ rest)).map (fun x => x.2.1) =
      (answerLines depth machine rest).map fun x => earlier ++ x.2.1 := by
  induction init generalizing m earlier with
  | nil =>
    cases h
    simp
  | cons line init ih =>
    obtain ⟨a, later, ha, -, hlater, rfl⟩ := answerValues_cons h
    calc (answerLines depth m ((line :: init).map some ++ rest)).map (fun x => x.2.1)
      _ = ((answerLines depth a.machine (init.map some ++ rest)).map fun x => x.2.1).map
          (a.output ++ ·) := by
        rw [Option.map_map]
        exact answerLines_cons ha _
      _ = (answerLines depth machine rest).map fun x => a.output ++ later ++ x.2.1 := by
        rw [ih hlater, Option.map_map]
        simp only [Function.comp_def, String.append_assoc]

namespace ClosedSource

variable {line : String}

/-- The line loop does not pass the line over. -/
theorem allSpace_eq_false (h : ClosedSource line) : allSpace line = false := by
  obtain ⟨t, ht, hkind⟩ := h.exists_semicolon
  have hmem : ';' ∈ line.toList := Scanner.semicolon_mem (List.mem_of_getLast? ht) hkind
  exact List.all_eq_false.mpr ⟨';', hmem, by decide⟩

theorem answerLine_eq (h : ClosedSource line) (depth : Nat) (machine : Machine Unit) :
    answerLine depth machine line = answerSource depth machine line := by
  rw [answerLine, if_neg (by rw [h.allSpace_eq_false]; decide)]

theorem run_of_value (h : ClosedSource line) {depth : Nat} {machine : Machine Unit} {a : Answer}
    (ha : answerLine depth machine line = some a) (hvalue : a.failure = none) :
    ∃ v, (parse line).program.run depth 0 { machine with calls := #[] } =
      some (.ok v, a.machine) := by
  have hanswer := answerSource_of_quiet h.quiet depth machine
  rw [← h.answerLine_eq, ha, Option.map_some, hvalue] at hanswer
  obtain ⟨⟨r, t⟩, hrun, heq⟩ := Option.map_eq_some_iff.mp hanswer.symm
  obtain ⟨-, hok, ht⟩ : outcomeLine r = a.output ∧ r.isOk = true ∧ t = a.machine := by
    simpa using heq
  cases r with
  | error e => cases hok
  | ok v => exact ⟨v, by rw [hrun, ht]⟩

end ClosedSource

/-! ## One run and many -/

/-- The run of a program after the runs of some lines on one machine, and the run of all as one
program, have the same outcome. -/
theorem run_lines {depth : Nat} {init : List String} {m m' machine : Machine Unit}
    {earlier : String} {q : Program Unit} (hclosed : ∀ line ∈ init, ClosedSource line)
    (hreturns : ∀ line ∈ init, blockReturns (parse line).program = false) (hq : q ≠ [])
    (hinit : answerValues depth m init = some (earlier, machine))
    (hstore : m.store.Alike (.shift 1 0) m'.store) :
    Option.Rel (SameRun (.shift 1 0)) (q.run depth 0 { machine with calls := #[] })
      (Program.run depth ((init.flatMap fun line => (parse line).program) ++ q) 0 m') := by
  have hroot : (Matching.shift 1 0).Scopes 0 0 := Or.inl ⟨Nat.one_pos, rfl⟩
  induction init generalizing m m' earlier with
  | nil =>
    cases hinit
    exact Program.run_alike (s := { machine with calls := #[] }) (fun _ _ => trivial) hroot hstore
      depth
  | cons line init ih =>
    obtain ⟨a, rest, ha, hvalue, hrest, -⟩ := answerValues_cons hinit
    have hline := hclosed line List.mem_cons_self
    obtain ⟨v, hrun⟩ := hline.run_of_value ha hvalue
    -- the line has the same run in the midst of the script, and has not returned
    have hrel := Program.run_alike (p := (parse line).program) (s := { m with calls := #[] })
      (fun _ _ => trivial) hroot hstore depth
    rw [hrun] at hrel
    generalize hrun' : (parse line).program.run depth 0 m' = o at hrel
    cases hrel with
    | @some _ y hy =>
      obtain ⟨r, t⟩ := y
      obtain ⟨hr, ht⟩ := hy
      cases hr with
      | ok _ =>
        have hne : (init.flatMap fun line => (parse line).program) ++ q ≠ [] :=
          List.append_ne_nil_of_right_ne_nil _ hq
        rw [List.flatMap_cons, List.append_assoc,
          Program.run_append (hreturns line List.mem_cons_self) hne, hrun']
        exact ih (fun l hl => hclosed l (List.mem_cons_of_mem _ hl))
          (fun l hl => hreturns l (List.mem_cons_of_mem _ hl)) hrest ht

theorem SameOutcome.outcomeLine_eq {τ : Type} {m : Matching} {r r' : Except EvalError (Value τ)}
    (h : SameOutcome (Value.Alike m) r r') : outcomeLine r = outcomeLine r' ∧ r.isOk = r'.isOk := by
  cases h with
  | ok hvw => exact ⟨congrArg (· ++ "\n") hvw.display, rfl⟩
  | error e => exact ⟨rfl, rfl⟩

/-! ## Agreement -/

theorem map_eq_of_rel {α β γ : Type} {R : α → β → Prop} {x : Option α} {y : Option β}
    (h : Option.Rel R x y) {f : α → γ} {g : β → γ} (hfg : ∀ a b, R a b → f a = g b) :
    x.map f = y.map g := by
  cases h with
  | none => rfl
  | some hab => exact congrArg some (hfg _ _ hab)

/-- The exit code of a run that failed or not. -/
theorem Transcript.exit_ofRun (verbosity : Nat) (events : List LogEvent) (output : String)
    (failure : Option Failure) :
    (Transcript.ofRun verbosity events output failure).exit = if failure.isNone then 0 else 1 := by
  cases failure <;> rfl

theorem Transcript.stdout_ofRun (verbosity : Nat) (events : List LogEvent) (output : String)
    (failure : Option Failure) :
    (Transcript.ofRun verbosity events output failure).stdout = output := by
  cases failure <;> rfl

/-- A script prints the answer to its source and exits with failure if that is one. -/
theorem runScript_toUTF8 (depth verbosity : Nat) (path source : String) :
    (runScript depth verbosity path (.ok source.toUTF8)).map (fun t => (t.stdout, t.exit)) =
      (answerSource depth .ofRoot source).map
        fun a => (a.output, if a.failure.isNone then 0 else 1) := by
  simp only [runScript, fromUTF8?_toUTF8, Option.map_map, Function.comp_def,
    Transcript.stdout_ofRun, Transcript.exit_ofRun]

/-- A script of lines that leave nothing open prints what the line loop prints for the last of them,
if the others have values and do not return. -/
theorem runScript_joinLines {depth : Nat} {init : List String} {last earlier : String}
    {machine : Machine Unit} (hclosed : ∀ line ∈ init ++ [last], ClosedSource line)
    (hreturns : ∀ line ∈ init, blockReturns (parse line).program = false)
    (hinit : answerValues depth .ofRoot init = some (earlier, machine)) (verbosity : Nat)
    (path : String) :
    (runScript depth verbosity path (.ok (joinLines (init ++ [last])).toUTF8)).map
        (fun t => (t.stdout, t.exit)) =
      (answerLine depth machine last).map
        (fun a => (a.output, if a.failure.isNone then 0 else 1)) := by
  have hlast : ClosedSource last := hclosed last (by simp)
  obtain ⟨hquiet, hprogram⟩ := parse_joinLines hclosed
  have hroot : (Machine.ofRoot : Machine Unit).store.WellFormed := .add .empty fun _ h => nomatch h
  have hstore : (Machine.ofRoot : Machine Unit).store.Alike (.shift 1 0) Machine.ofRoot.store :=
    Store.Alike.of_keeps hroot rfl fun _ _ => rfl
  have hrel := run_lines (fun line hline => hclosed line (List.mem_append_left _ hline)) hreturns
    hlast.program_ne_nil hinit hstore
  rw [runScript_toUTF8, answerSource_verdict hquiet, hprogram, hlast.answerLine_eq,
    answerSource_verdict hlast.quiet, List.flatMap_append, List.flatMap_singleton]
  refine (map_eq_of_rel hrel fun x y hxy => ?_).symm
  rw [verdict, verdict, hxy.outcome.outcomeLine_eq.1, hxy.outcome.outcomeLine_eq.2]

/-- On lines of which all but the last have values, the line loop prints the greeting, the values and
the answer to the last. -/
theorem runLines_eq {read : LineReader} {input : List UInt8} {depth : Nat} {init : List String}
    {last earlier : String} {machine : Machine Unit}
    (hread : read input = (init ++ [last]).map some)
    (hinit : answerValues depth .ofRoot init = some (earlier, machine)) (verbosity : Nat)
    (greeting : String) :
    (runLines read depth verbosity greeting input).map Transcript.stdout =
      (answerLine depth machine last).map fun a => greeting ++ earlier ++ a.output := by
  have hlast : (answerLines depth machine [some last]).map (fun x => x.2.1) =
      (answerLine depth machine last).map Answer.output := by
    rw [answerLines]
    cases answerLine depth machine last with
    | none => rfl
    | some a => simp [answerLines]
  calc (runLines read depth verbosity greeting input).map Transcript.stdout
    _ = ((answerLines depth .ofRoot (init.map some ++ [some last])).map fun x => x.2.1).map
        (greeting ++ ·) := by
      rw [runLines, hread, List.map_append, Option.map_map, Option.map_map]
      exact congrArg (Option.map · _) (funext fun x => Transcript.stdout_ofRun _ _ _ _)
    _ = ((answerLines depth machine [some last]).map fun x => x.2.1).map
        (greeting ++ earlier ++ ·) := by
      rw [answerLines_append hinit, Option.map_map, Option.map_map]
      simp only [Function.comp_def, String.append_assoc]
    _ = (answerLine depth machine last).map fun a => greeting ++ earlier ++ a.output := by
      rw [hlast, Option.map_map]
      rfl

/-- **Scripts and the line loop agree.** Let lines leave nothing open, let none but the last have a
return statement outside function literals, and let the line loop have a value for each but the
last. Then the lines joined are a script without diagnostics, and running it prints what the line
loop prints for the last line; it exits with failure exactly if that is an error, and has no end
exactly if the last line has none.

So for the same bytes, read as a script and read as these lines by whatever reader, the line loop
prints the greeting, the answers to the earlier lines and then what the script prints. -/
theorem script_agrees_with_lines {depth : Nat} {init : List String} {last earlier : String}
    {machine : Machine Unit} (hclosed : ∀ line ∈ init ++ [last], ClosedSource line)
    (hreturns : ∀ line ∈ init, blockReturns (parse line).program = false)
    (hinit : answerValues depth .ofRoot init = some (earlier, machine)) (verbosity : Nat)
    (path : String) :
    (parse (joinLines (init ++ [last]))).diagnostics = [] ∧
      (runScript depth verbosity path (.ok (joinLines (init ++ [last])).toUTF8)).map
          (fun t => (t.stdout, t.exit)) =
        (answerLine depth machine last).map
          (fun a => (a.output, if a.failure.isNone then 0 else 1)) ∧
      ∀ (read : LineReader) (greeting : String),
        read (utf8Bytes (joinLines (init ++ [last]))) = (init ++ [last]).map some →
        (runLines read depth verbosity greeting (utf8Bytes (joinLines (init ++ [last])))).map
            Transcript.stdout =
          (runScript depth verbosity path (.ok (joinLines (init ++ [last])).toUTF8)).map
            fun t => greeting ++ earlier ++ t.stdout := by
  have hscript := runScript_joinLines hclosed hreturns hinit verbosity path
  refine ⟨(parse_joinLines hclosed).1, hscript, fun read greeting hread => ?_⟩
  have houtput := congrArg (Option.map fun x => greeting ++ earlier ++ x.1) hscript
  rw [Option.map_map, Option.map_map] at houtput
  exact (runLines_eq hread hinit verbosity greeting).trans houtput.symm

/-- Two lines, of which the second calls what the first has bound. -/
def tableLines : List String :=
  ["let next = fn(x) \x7b return x + 1; \x7d;", "let table = \x7b1: next(1), true: next\x7d;"]

/-- A line that reads what both have bound, and returns. -/
def tableLine : String := "return table[true](table[1]); 0;"

/-- The plain reader reads the three lines. -/
theorem script_agrees_with_lines_table : ∃ earlier machine,
    answerValues 1 .ofRoot tableLines = some (earlier, machine) ∧
      (runScript 1 0 "table" (.ok (joinLines (tableLines ++ [tableLine])).toUTF8)).map
          (fun t => (t.stdout, t.exit)) = some ("3\n", 0) ∧
      (runLines .plain 1 0 "" (utf8Bytes (joinLines (tableLines ++ [tableLine])))).map
          Transcript.stdout = some (earlier ++ "3\n") := by
  have hclosed : (tableLines ++ [tableLine]).all (fun line => decide (ClosedSource line)) =
      true := by
    decide +kernel
  have hlines : (tableLines ++ [tableLine]).all (fun line => decide (IsLine line)) = true := by
    decide +kernel
  have hreturns : tableLines.all (fun line => !blockReturns (parse line).program) = true := by
    decide +kernel
  have hanswer : (answerValues 1 .ofRoot tableLines).bind (fun x => (answerLine 1 x.2 tableLine).map
      fun a => (a.output, if a.failure.isNone then 0 else 1)) = some ("3\n", 0) := by
    decide +kernel
  obtain ⟨⟨earlier, machine⟩, hinit, hlast⟩ := Option.bind_eq_some_iff.mp hanswer
  obtain ⟨-, hscript, hbytes⟩ := script_agrees_with_lines
    (fun line h => of_decide_eq_true (List.all_eq_true.mp hclosed line h))
    (fun line h => (Bool.not_eq_true' _).mp (List.all_eq_true.mp hreturns line h)) hinit 0 "table"
  have hloop := hbytes .plain "" (map_decodeLine?_joinLines fun line h =>
    of_decide_eq_true (List.all_eq_true.mp hlines line h))
  have hrun := hscript.trans hlast
  obtain ⟨t, ht, htranscript⟩ := Option.map_eq_some_iff.mp hrun
  rw [ht, Option.map_some, (Prod.mk.inj htranscript).1, String.empty_append] at hloop
  exact ⟨earlier, machine, hinit, hrun, hloop⟩

end ClosureLang
