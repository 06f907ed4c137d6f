import CodeGraft.Proofs.Undo

/-!
# Statuses

A command that reads a text ends with the status zero, one or two, or it breaks. What it reads comes
first: bytes that are no text break it, and a file that cannot be read is a wrong call. Behind that,
only an option that was given no value, or a path that no disk can have, can break it. A fault while a block is applied does not end
the command; it is the block's result, and one such result makes the status one.
-/

namespace CodeGraft

namespace Command

open Text Dialogue

variable {test : Call → World → Bool} {w w' : World} {s : Shared} {o : ApplyOptions}
  {source : Source} {c : Command} {σ : Type} {m : ClockedHost σ} {start ended : σ}

def source? : Command → Option Source
  | apply o => some o.source
  | blocks source => some source
  | _ => none

/-- The path of the file that a text is read from. A single dash stands for the user's input. -/
def Source.path? (source : Source) : Option Text := source.file.filter (· ≠ ['-'])

def Source.found (source : Source) (w : World) : Except Fault (Except Objection Text) :=
  match source.clipboard, source.path? with
  | true, some _ => .ok (.error "--clipboard cannot be combined with an input file")
  | true, none => .ok (.ok w.clipboard)
  | false, none => w.input.rest.1.map .ok
  | false, some path =>
    match World.textAt w.disk path with
    | .ok text => .ok (.ok text)
    | .error (.disk e) => .ok (.error (glue ["Cannot read ", path, ": ", e.message]))
    | .error e => .error e

theorem Source.eq_found_of_goes {r : Except Fault (Except Objection Text)}
    (h : source.read.run.Goes (World.turns test) w r w') : r = source.found w := by
  unfold Source.read at h
  unfold Source.found Source.path?
  split at h
  next hclipboard hfile =>
    rw [hclipboard, hfile]
    exact (goes_pure_run_iff.mp h).1
  next hclipboard hfile =>
    rw [hclipboard, hfile]
    obtain ⟨text, u, hcall, hrest⟩ := goes_lift_bind_run_iff.mp h
    obtain ⟨-, hhost⟩ := (goes_call_iff rfl).mp hcall
    cases hhost
    exact (goes_pure_run_iff.mp hrest).1
  next hclipboard hfile =>
    rw [hclipboard, hfile]
    rcases goes_bind_run_iff.mp h with ⟨e, hinput, rfl⟩ | ⟨text, u, hinput, hrest⟩
    · obtain ⟨-, hhost⟩ := (goes_call_iff rfl).mp hinput
      have hread : w.input.rest.1 = .error e := congrArg Prod.fst hhost
      simp only [hread, Except.map]
    · obtain ⟨-, hhost⟩ := (goes_call_iff rfl).mp hinput
      have hread : w.input.rest.1 = .ok text := congrArg Prod.fst hhost
      simp only [hread, Except.map]
      exact (goes_pure_run_iff.mp hrest).1
  next path hclipboard hfile =>
    rw [hclipboard, hfile]
    rcases goes_tryCatch_run_iff.mp h with ⟨found, hread, rfl⟩ | ⟨e, u, hread, hrest⟩
    · rcases goes_bind_run_iff.mp hread with ⟨e, -, heq⟩ | ⟨text, u, hread, hrest⟩
      · cases heq
      obtain ⟨htext, -⟩ := eq_of_goes_readText hread
      simp only [← htext]
      exact (goes_pure_run_iff.mp hrest).1
    · rcases goes_bind_run_iff.mp hread with ⟨e', hread, heq⟩ | ⟨text, v, -, hdone⟩
      · obtain ⟨htext, -⟩ := eq_of_goes_readText hread
        obtain rfl := Except.error.inj heq
        simp only [← htext]
        split at hrest
        next => exact (goes_pure_run_iff.mp hrest).1
        next hother =>
          split
          next heq => cases heq
          next heq =>
            cases heq
            exact absurd rfl (hother _)
          next heq =>
            cases heq
            exact (goes_throw_run_iff.mp hrest).1
      · cases (goes_pure_run_iff.mp hdone).1

def Source.bytes? (source : Source) (w : World) : Option Bytes :=
  match source.clipboard, source.path? with
  | true, _ => none
  | false, some path => (World.ask path (w.disk.read path)).toOption
  | false, none =>
    match w.input with
    | .sealed content => some content
    | _ => none

/-- A file that no disk can have. -/
def Source.IsNowhere (source : Source) : Prop :=
  source.clipboard = false ∧ ∃ path, source.path? = some path ∧
    Path.holdsNull path = true

theorem textOf_eq_error_iff {content : Bytes} {e : Fault} :
    Machine.textOf content = .error e ↔
      ∃ reason, Utf8.decode content = .error reason ∧ e = .undecodable reason := by
  unfold Machine.textOf
  cases Utf8.decode content <;> simp [eq_comm]

theorem Source.found_of_bytes {content : Bytes} (h : source.bytes? w = some content) :
    source.found w = (Machine.textOf content).map .ok := by
  unfold Source.bytes? at h
  unfold Source.found
  split at h
  next => cases h
  next path hclipboard hfile =>
    rw [hclipboard, hfile]
    have hasked : World.ask path (w.disk.read path) = .ok content := by
      cases hask : World.ask path (w.disk.read path) with
      | error e => simp [hask, Except.toOption] at h
      | ok found => simpa [hask, Except.toOption] using h
    cases htext : Machine.textOf content with
    | ok text => simp [World.textAt, hasked, Except.bind, htext, Except.map]
    | error e =>
      obtain ⟨reason, -, rfl⟩ := textOf_eq_error_iff.mp htext
      simp [World.textAt, hasked, Except.bind, htext, Except.map]
  next hclipboard hfile =>
    split at h
    next input hinput =>
      rw [hclipboard, hfile, hinput, ← Option.some.inj h]
      rfl
    next => cases h

theorem Source.found_eq_error_iff_of_none {input : Bytes} {e : Fault}
    (hinput : w.input = .sealed input) (h : source.bytes? w = none) :
    source.found w = .error e ↔ source.IsNowhere ∧ e = .nullInPath := by
  unfold Source.bytes? at h
  unfold Source.found Source.IsNowhere
  cases hclipboard : source.clipboard with
  | true => cases source.path? <;> simp
  | false =>
    cases hfile : source.path? with
    | none => simp [hclipboard, hfile, hinput] at h
    | some path =>
      simp only [hclipboard, hfile] at h
      cases hproper : Path.holdsNull path with
      | true => simp [World.textAt, World.ask, hproper, Except.bind, eq_comm (a := e)]
      | false =>
        cases hread : w.disk.read path with
        | ok content => simp [World.ask, hproper, hread, Except.toOption] at h
        | error refusal => simp [World.textAt, World.ask, hproper, hread, Except.bind]

theorem Source.not_isNowhere_of_bytes {content : Bytes} (h : source.bytes? w = some content) :
    ¬ source.IsNowhere := by
  rintro ⟨hclipboard, path, hfile, hnull⟩
  simp [Source.bytes?, hclipboard, hfile, World.ask, hnull, Except.toOption] at h

theorem Source.found_eq_error_iff {input : Bytes} {e : Fault} (hinput : w.input = .sealed input) :
    source.found w = .error e ↔
      (∃ content reason, source.bytes? w = some content ∧
        Utf8.decode content = .error reason ∧ e = .undecodable reason) ∨
      (source.IsNowhere ∧ e = .nullInPath) := by
  cases hbytes : source.bytes? w with
  | none => simp [Source.found_eq_error_iff_of_none hinput hbytes]
  | some content =>
    rw [Source.found_of_bytes hbytes]
    have hmap : (Machine.textOf content).map (Except.ok (ε := Objection)) = .error e ↔
        Machine.textOf content = .error e := by
      cases Machine.textOf content <;> simp [Except.map]
    simp [hmap, textOf_eq_error_iff, Source.not_isNowhere_of_bytes hbytes]

/-! ### How a command ends -/

/-- How a command that applies blocks ends behind its batch. -/
def ApplyOptions.ending (o : ApplyOptions) : Except Objection Summary → Except Fault Nat
  | .error _ => .ok 2
  | .ok summary =>
    if o.view && o.maxOpen.isNone && !(writtenPaths (settingsOf o) summary.results).isEmpty then
      .error (.incomparable ">")
    else .ok (if summary.failed.isEmpty then 0 else 1)

theorem ApplyOptions.ending_eq_error_iff {summary : Summary} {e : Fault} :
    o.ending (.ok summary) = .error e ↔ o.view = true ∧ o.maxOpen = none ∧
      writtenPaths (settingsOf o) summary.results ≠ [] ∧ e = .incomparable ">" := by
  dsimp only [ending]
  split
  next hbroken =>
    simp only [Bool.and_eq_true, Option.isNone_iff_eq_none, Bool.not_eq_true',
      List.isEmpty_eq_false_iff, and_assoc] at hbroken
    simp [hbroken, eq_comm (a := e)]
  next hcounted =>
    simp only [Bool.and_eq_true, Option.isNone_iff_eq_none, Bool.not_eq_true',
      List.isEmpty_eq_false_iff, and_assoc] at hcounted
    simp only [reduceCtorEq, false_iff]
    rintro ⟨hview, hcount, hwritten, -⟩
    exact hcounted ⟨hview, hcount, hwritten⟩

theorem ApplyOptions.of_ending_eq_ok {summary : Summary} {status : Nat}
    (h : o.ending (.ok summary) = .ok status) :
    (status = 0 ∨ status = 1) ∧
      (status = 1 ↔ ∃ result ∈ summary.results, result.status = .failed) := by
  have hfailed : (∃ result ∈ summary.results, result.status = .failed) ↔ summary.failed ≠ [] := by
    simp [Summary.failed]
  dsimp only [ending] at h
  split at h
  next => cases h
  next =>
    obtain rfl := Except.ok.inj h
    rw [hfailed]
    cases summary.failed <;> simp

theorem eq_of_goes_object {speaker : Text} {objection : Objection} {status : Nat}
    {step : Step Answer σ} (h : (object speaker objection).Goes step start status ended) :
    status = 2 := by
  obtain ⟨-, u, -, hlast⟩ := goes_bind_iff.mp h
  exact (goes_pure_iff.mp hlast).1

theorem exists_ending {step : Step Answer σ} {r : Except Fault Nat}
    (h : (runApply s o).run.Goes step start r ended) :
    ∃ batch u, (applyInput s o).run.Goes step start batch u ∧ r = batch.bind o.ending := by
  rcases goes_bind_run_iff.mp h with ⟨e, hbatch, rfl⟩ | ⟨done, u, hbatch, hrest⟩
  · exact ⟨_, _, hbatch, rfl⟩
  refine ⟨_, u, hbatch, ?_⟩
  cases done with
  | error objection =>
    obtain ⟨status, hobject, rfl⟩ := goes_lift_run_iff.mp hrest
    rw [eq_of_goes_object hobject]
    rfl
  | ok summary =>
    dsimp only [Except.bind, ApplyOptions.ending] at hrest ⊢
    split at hrest
    next hbroken =>
      rw [if_pos hbroken]
      exact (goes_throw_run_iff (e := Fault.incomparable ">")).mp hrest |>.1
    next hcounted =>
      rw [if_neg hcounted]
      obtain ⟨⟨⟩, v, -, hlast⟩ := goes_lift_bind_run_iff.mp hrest
      exact (goes_pure_run_iff.mp hlast).1

theorem runBlocks_cases {r : Except Fault Nat}
    (h : (runBlocks source).run.Goes (World.turns test) w r w') :
    r = (source.found w).bind fun found => .ok (match found with | .error _ => 2 | .ok _ => 0) := by
  rcases goes_bind_run_iff.mp h with ⟨e, hsource, rfl⟩ | ⟨found, u, hsource, hrest⟩
  · rw [← Source.eq_found_of_goes hsource]
    rfl
  rw [← Source.eq_found_of_goes hsource]
  cases found with
  | error objection =>
    obtain ⟨status, hobject, rfl⟩ := goes_lift_run_iff.mp hrest
    rw [eq_of_goes_object hobject]
    rfl
  | ok text =>
    obtain ⟨⟨⟩, v, -, hrest⟩ := goes_lift_bind_run_iff.mp hrest
    split at hrest
    all_goals
      obtain ⟨⟨⟩, x, -, hlast⟩ := goes_lift_bind_run_iff.mp hrest
      exact (goes_pure_run_iff.mp hlast).1

inductive Breaks (m : ClockedHost σ) (s : Shared) (c : Command) (source : Source) (start : σ) :
    Fault → Prop
  /-- What it reads is no text. -/
  | garbled {content : Bytes} {reason : Utf8.DecodeError}
      (h : source.bytes? (m.world start) = some content)
      (hdecode : Utf8.decode content = .error reason) :
      Breaks m s c source start (.undecodable reason)
  | nowhere (h : source.IsNowhere) : Breaks m s c source start .nullInPath
  /-- It is to apply the blocks of a text, and lacks something that it needs. -/
  | lacking {o : ApplyOptions} {text : Text} {e : Fault} (hcommand : c = .apply o)
      (htext : source.found (m.world start) = .ok (.ok text))
      (hlack : s.scene o (m.world start) = .error e) : Breaks m s c source start e
  /-- It has written files, and is to open them without knowing how many. -/
  | uncounted {o : ApplyOptions} (hcommand : c = .apply o) (hview : o.view = true)
      (hcount : o.maxOpen = none)
      (hwritten : writtenPaths (settingsOf o) (reports m s o start) ≠ []) :
      Breaks m s c source start (.incomparable ">")

theorem breaks_iff {input : Bytes} {e : Fault} (hinput : (m.world start).input = .sealed input) :
    Breaks m s c source start e ↔ source.found (m.world start) = .error e ∨
      ∃ o, c = .apply o ∧
        ((∃ text, source.found (m.world start) = .ok (.ok text) ∧
            s.scene o (m.world start) = .error e) ∨
          (o.view = true ∧ o.maxOpen = none ∧
            writtenPaths (settingsOf o) (reports m s o start) ≠ [] ∧ e = .incomparable ">")) := by
  constructor
  · intro h
    cases h with
    | garbled h hdecode =>
      exact .inl ((Source.found_eq_error_iff hinput).mpr (.inl ⟨_, _, h, hdecode, rfl⟩))
    | nowhere h => exact .inl ((Source.found_eq_error_iff hinput).mpr (.inr ⟨h, rfl⟩))
    | lacking hcommand htext hlack => exact .inr ⟨_, hcommand, .inl ⟨_, htext, hlack⟩⟩
    | uncounted hcommand hview hcount hwritten =>
      exact .inr ⟨_, hcommand, .inr ⟨hview, hcount, hwritten, rfl⟩⟩
  · rintro (h | ⟨o, hcommand, ⟨text, htext, hlack⟩ | ⟨hview, hcount, hwritten, rfl⟩⟩)
    · rcases (Source.found_eq_error_iff hinput).mp h with
        ⟨content, reason, hbytes, hdecode, rfl⟩ | ⟨hnowhere, rfl⟩
      · exact .garbled hbytes hdecode
      · exact .nowhere hnowhere
    · exact .lacking hcommand htext hlack
    · exact .uncounted hcommand hview hcount hwritten

/-- What the end of a command says: a fault is a break, and a status tells of blocks that failed and
of wrong calls. -/
def Tells (m : ClockedHost σ) (s : Shared) (c : Command) (source : Source) (start : σ)
    (r : Except Fault Nat) : Prop :=
  (∀ e, r = .error e ↔ Breaks m s c source start e) ∧
    ∀ status, r = .ok status →
      (status = 0 ∨ status = 1 ∨ status = 2) ∧
      (status = 1 ↔ ∃ o, c = .apply o ∧ ∃ result ∈ reports m s o start, result.status = .failed) ∧
      (status = 2 ↔ ∃ objection, source.found (m.world start) = .ok (.error objection))

theorem reports_eq_of_goes {batch : Except Fault (Except Objection Summary)}
    (h : (applyInput s o).run.Goes (m.steps test) start batch ended) :
    reports m s o start = ((batch.toOption.bind Except.toOption).map Summary.results).getD [] := by
  unfold reports
  rw [(goes_steps_iff.mp h).1]
  rcases batch with e | objection | summary <;> rfl

theorem writtenPaths_nil (settings : Settings) : writtenPaths settings [] = [] := by
  unfold writtenPaths
  split <;> rfl

theorem tells_runApply {input : Bytes} {r : Except Fault Nat}
    (hinput : (m.world start).input = .sealed input)
    (h : (runApply s o).run.Goes (m.steps test) start r ended) :
    Tells m s (.apply o) o.source start r := by
  obtain ⟨batch, u, hbatch, rfl⟩ := exists_ending h
  obtain ⟨found, v, hsource, -, hcases⟩ := applyInput_cases (ClockedHost.goes_world hbatch)
  obtain rfl := Source.eq_found_of_goes hsource
  have hreports := reports_eq_of_goes hbatch
  unfold Tells
  simp only [breaks_iff hinput]
  cases hfound : o.source.found (m.world start) with
  | error e =>
    simp only [hfound] at hcases
    subst hcases
    simp [Except.bind, hreports, Except.toOption, writtenPaths_nil]
  | ok found =>
    cases found with
    | error objection =>
      simp only [hfound] at hcases
      subst hcases
      simp [Except.bind, ApplyOptions.ending, hreports, Except.toOption, writtenPaths_nil]
    | ok text =>
      cases hscene : s.scene o (m.world start) with
      | error e =>
        simp only [hfound, hscene] at hcases
        subst hcases
        simp [Except.bind, hreports, Except.toOption, writtenPaths_nil, hscene]
      | ok scene =>
        simp only [hfound, hscene] at hcases
        obtain ⟨summary, rfl, -⟩ := hcases
        constructor
        · intro e
          simp [Except.bind, hreports, Except.toOption, hscene, ApplyOptions.ending_eq_error_iff]
        · intro status hstatus
          obtain ⟨hrange, hfailed⟩ := ApplyOptions.of_ending_eq_ok hstatus
          refine ⟨by omega, ?_, ?_⟩
          · simpa [hreports, Except.toOption] using hfailed
          · simp
            omega

theorem tells_runBlocks {input : Bytes} {r : Except Fault Nat}
    (hinput : (m.world start).input = .sealed input)
    (h : (runBlocks source).run.Goes (m.steps test) start r ended) :
    Tells m s (.blocks source) source start r := by
  rw [runBlocks_cases (ClockedHost.goes_world h)]
  unfold Tells
  simp only [breaks_iff hinput, reduceCtorEq, false_and, exists_false, or_false]
  rcases source.found (m.world start) with e | objection | text <;> simp [Except.bind]

/-- A fault that says that a value is missing, or a path that no disk can have. -/
def Fault.IsLack (e : Fault) : Prop := e = .notOpenable "list" ∨ e = .nullInPath

theorem isLack_of_bind {α β : Type} {x : Except Fault α} {f : α → Except Fault β} {e : Fault}
    (hx : ∀ e, x = .error e → Fault.IsLack e) (hf : ∀ a e, f a = .error e → Fault.IsLack e)
    (h : x.bind f = .error e) : Fault.IsLack e := by
  cases x with
  | error e' => exact hx e (congrArg Except.error (Except.error.inj h))
  | ok a => exact hf a e h

theorem isLack_of_expanded {homes : Text → Option Text} {path : Text} {e : Fault}
    (h : expanded homes path = .error e) : Fault.IsLack e := by
  unfold expanded at h
  split at h
  · cases h
  · split at h
    · exact .inr (Except.error.inj h).symm
    · cases h

theorem isLack_of_scene {e : Fault} (h : s.scene o w = .error e) : Fault.IsLack e := by
  have hfolder : ∀ e, s.folderOn w.homes = .error e → Fault.IsLack e := by
    intro e h
    unfold Shared.folderOn at h
    split at h
    · exact isLack_of_expanded h
    · exact .inl (Except.error.inj h).symm
    · cases h
  refine isLack_of_bind (fun e h => ?_) (fun place e h => ?_) h
  · unfold Shared.placeFor at h
    split at h
    · exact isLack_of_bind hfolder (fun _ _ => isLack_of_expanded) h
    · cases h
  · split at h
    · exact .inl (Except.error.inj h).symm
    · split at h
      · exact .inr (Except.error.inj h).symm
      · cases h

theorem Breaks.not_isOwn {e : Fault} (h : Breaks m s c source start e) : e.isOwn = false := by
  cases h with
  | garbled => rfl
  | nowhere => rfl
  | lacking _ _ hlack =>
    rcases isLack_of_scene hlack with rfl | rfl
    · rfl
    · rfl
  | uncounted => rfl

/-- A command that reads a text ends with zero, one or two, or it breaks in one of the ways that
`Breaks` lists, whatever the input holds and however the clock goes. The status is one exactly if a
block has failed, and two exactly if there is nothing to read. -/
theorem run_tells {line : List Text} {i : Invocation} {input : Bytes}
    (hline : Invocation.read line = .ok i) (hsource : i.command.source? = some source)
    (hinput : (m.world start).input = .sealed input) :
    Tells m i.shared i.command source start (Dialogue.run m.host (run line).run start).1 := by
  have hgoes := goes_run m.host (run line).run start
  have hcarried : ∀ {r u},
      i.carryOut.run.Goes (m.steps fun _ _ => true) start r u →
        Tells m i.shared i.command source start r := by
    intro r u hcarried
    unfold Invocation.carryOut at hcarried
    cases hcommand : i.command with
    | apply o =>
      rw [hcommand] at hsource hcarried
      obtain rfl := Option.some.inj hsource
      exact tells_runApply hinput hcarried
    | blocks source' =>
      rw [hcommand] at hsource hcarried
      obtain rfl := Option.some.inj hsource
      exact tells_runBlocks hinput hcarried
    | _ =>
      rw [hcommand] at hsource
      cases hsource
  generalize (Dialogue.run m.host (run line).run start).1 = r at hgoes ⊢
  rw [run, hline] at hgoes
  rcases goes_tryCatch_run_iff.mp hgoes with ⟨status, hdone, rfl⟩ | ⟨e, u, hfailed, hrest⟩
  · exact hcarried hdone
  · -- no break has a fault of the program's own, so it is not made into a status
    have htells := hcarried hfailed
    rw [((htells.1 e).mp rfl).not_isOwn] at hrest
    obtain ⟨rfl, -⟩ := (goes_throw_run_iff (e := e)).mp hrest
    exact htells

def lonelyLine : List Text := ["apply", "--yes", "--no-backup"]

/-- A machine whose user has a block for a file at a path where there is a folder. -/
def obstructed (input : Bytes) : World where
  disk := { nodes := [(["ws"], .folder), (["ws", "a.js"], .folder)], current := ["ws"] }
  now := ⟨2024, 1, 2, 3, 4, 5, 6⟩
  input := .sealed input

/-- A block that fails makes the status one. -/
theorem run_tells_of_failure :
    let m : ClockedHost (World × Nat) := .ticking fun n => ⟨2024, 1, 2, 3, 4, 5, n⟩
    let o : ApplyOptions := { yes := true, noBackup := true }
    let s : Shared := { command := lonelyLine }
    let start := (obstructed (Utf8.encode "a.js\n```js\n1\n```\n"), 0)
    let result := (Dialogue.run m.host (run lonelyLine).run start).1
    Invocation.read lonelyLine = .ok ⟨s, .apply o⟩ ∧ result.toOption = some 1 ∧
      (reports m s o start).map (·.status) = [.failed] ∧
      Tells m s (.apply o) o.source start result := by
  intro m o s start result
  have hline : Invocation.read lonelyLine = .ok ⟨s, .apply o⟩ := rfl
  exact ⟨hline, by decide +kernel, by decide +kernel, run_tells hline rfl rfl⟩

def garbledFile : World where
  disk := { nodes := [(["bad.txt"], .file [0xFF] ⟨2024, 1, 2, 3, 4, 5, 6⟩)] }
  now := ⟨2024, 1, 2, 3, 4, 5, 6⟩

/-- A file that is no text breaks the listing of its blocks: there is no status. -/
theorem not_run_tells :
    ¬ ∀ (line : List Text) (i : Invocation) (source : Source) (w : World),
      Invocation.read line = .ok i → i.command.source? = some source →
      ∃ status, (Dialogue.run World.host (run line).run w).1 = .ok status ∧
        (status = 0 ∨ status = 1 ∨ status = 2) := by
  intro h
  have hline : Invocation.read ["blocks".toList, "bad.txt".toList] =
      .ok ⟨{ command := ["blocks", "bad.txt"] }, .blocks { file := some "bad.txt" }⟩ := rfl
  obtain ⟨status, hended, -⟩ := h _ _ _ garbledFile hline rfl
  have hbroken : (Dialogue.run World.host (run ["blocks".toList, "bad.txt".toList]).run
      garbledFile).1.toOption = none := by decide +kernel
  rw [hended] at hbroken
  cases hbroken

end Command

end CodeGraft
